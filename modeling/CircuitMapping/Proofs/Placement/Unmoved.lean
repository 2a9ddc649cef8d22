/-
  CircuitMapping.Proofs.Placement.Unmoved — what it means that a simulation needed no SWAP.

  An interaction runs in place when its qubits are coupled where they are at first and all earlier ones that share a
  qubit with it run in place (`RunsInPlace`); one that is not coupled although all that it waits for runs in place is an
  obstacle. What runs in place is what is executed before the first SWAP (`Unmoved.isExecuted_iff`), and then the
  obstacles are in front (`Unmoved.mem_inFront_iff`). Now the simulation chooses a SWAP, unless nothing is left to be
  executed or there is no edge to choose. So it needs none exactly when all obstacles are cut off
  (`swaps_simulate_eq_zero_iff`): a simulation that gives up at once has the best score there is.

  Qubits that are cut off do not meet, so a circuit with such an interaction cannot be routed from that layout.
  Whenever it can be routed, the score tells the truth.
-/
import CircuitMapping.Proofs.Device.Topologies
import CircuitMapping.Proofs.Placement.Trials
import CircuitMapping.Proofs.Routing.InPlace

namespace CircuitMapping

open Success

namespace Sabre

variable {σ : Type} {d : Device} {o : Options} {l : Layout} {width : Nat} {pairs : List (Nat × Nat)} {st : State σ}
  {i n : Nat} {p : Nat × Nat}

/-! ## Interactions in place -/

/-- The qubits of an interaction sit on coupled nodes. -/
def Couples (d : Device) (l : Layout) (p : Nat × Nat) : Prop :=
  ∃ a b, l.placement[p.1]? = some a ∧ l.placement[p.2]? = some b ∧ d.adjacent a b = true

/-- An interaction and all that it has to wait for are on coupled nodes. -/
inductive RunsInPlace (d : Device) (l : Layout) (pairs : List (Nat × Nat)) : Nat → Prop
  | intro {i : Nat} {p : Nat × Nat} : pairs[i]? = some p → Couples d l p →
      (∀ j < i, Share pairs j i → RunsInPlace d l pairs j) → RunsInPlace d l pairs i

/-- An interaction is not coupled, and all that it has to wait for runs in place. -/
structure IsObstacle (d : Device) (l : Layout) (pairs : List (Nat × Nat)) (i : Nat) (p : Nat × Nat) : Prop where
  at_ : pairs[i]? = some p
  apart : ¬ Couples d l p
  ready : ∀ j < i, Share pairs j i → RunsInPlace d l pairs j

theorem RunsInPlace.couples (h : RunsInPlace d l pairs i) (hp : pairs[i]? = some p) : Couples d l p := by
  obtain ⟨hp', hc, -⟩ := h
  cases hp.symm.trans hp'
  exact hc

/-- Without obstacles everything runs in place. -/
theorem runsInPlace_of_no_obstacle (h : ∀ i p, ¬ IsObstacle d l pairs i p) (hi : i < pairs.length) :
    RunsInPlace d l pairs i := by
  induction i using Nat.strongRecOn with
  | ind i ih =>
    have hp := List.getElem?_eq_getElem hi
    have hready : ∀ j < i, Share pairs j i → RunsInPlace d l pairs j := fun j hj _ => ih j hj (Nat.lt_trans hj hi)
    by_contra hno
    exact h i _ ⟨hp, fun hc => hno ⟨hp, hc, hready⟩, hready⟩

/-- All interactions are coupled when there is no obstacle, and only then. -/
theorem forall_couples_iff : (∀ p ∈ pairs, Couples d l p) ↔ ∀ i p, ¬ IsObstacle d l pairs i p := by
  constructor
  · exact fun h i p hi => hi.apart (h p (List.mem_of_getElem? hi.at_))
  · intro h p hp
    obtain ⟨i, hi⟩ := List.mem_iff_getElem?.mp hp
    exact (runsInPlace_of_no_obstacle h (List.getElem?_eq_some_iff.mp hi).1).couples hi

/-- Two nodes are one coupling apart when they are coupled. -/
theorem gap_eq_one_iff (o : Options) : (Search.on d o).gap l.placement.toArray p = some 1 ↔ Couples d l p := by
  unfold Search.gap Couples
  simp only [List.getElem?_toArray]
  cases ha : l.placement[p.1]? with
  | none => simp
  | some a =>
    cases hb : l.placement[p.2]? with
    | none => simp
    | some b =>
      show ((DistanceTable.ofDevice d).lookup? a b >>= id) = some 1 ↔ _
      rw [DistanceTable.lookup?_ofDevice]
      constructor
      · intro h
        split at h
        · rename_i hm
          have hhops : d.hops? b a = some 1 := h
          obtain ⟨w, hw⟩ := Device.exists_walk_of_hops? hhops
          have hadj : d.adjacent b a = true := SimpleGraph.Walk.adj_of_length_eq_one hw
          exact ⟨a, b, rfl, rfl, (d.adjacent_comm a b).trans hadj⟩
        · cases h
      · rintro ⟨a', b', ha', hb', hadj⟩
        cases ha'
        cases hb'
        rw [if_pos (Device.mem_nodes_of_adjacent hadj)]
        exact Device.hops?_of_adjacent ((d.adjacent_comm b a).trans hadj)

theorem isTogether_iff (hl : st.layout = l) (hp : pairs[i]? = some p) :
    (Search.on d o).isTogether pairs st i = true ↔ Couples d l p := by
  unfold Search.isTogether
  rw [List.getElem?_toArray, hp, hl, beq_iff_eq]
  exact gap_eq_one_iff o

/-! ## Before the first SWAP -/

/-- Rounds end when nothing more can be executed. -/
theorem executable_drain (s : Search) (h : Proper width pairs) (hb : Books width pairs st) (hn : st.remaining ≤ n) :
    s.executable pairs.toArray (s.drain pairs.toArray n st) = [] := by
  induction n generalizing st with
  | zero =>
    by_contra hne
    have := (hb.foldl_executable h s).2.1
    have := List.length_pos_of_ne_nil hne
    unfold Search.drain at this
    omega
  | succ n ih =>
    unfold Search.drain
    split
    · rename_i hnil
      exact hnil
    · rename_i g gs hgs
      obtain ⟨hb', hless, -⟩ := hb.foldl_executable h s
      rw [hgs] at hb' hless
      rw [List.length_cons] at hless
      exact ih hb' (by omega)

/-- The books are right, no SWAP has been applied, and all that has been executed runs in place. -/
structure Unmoved (d : Device) (width : Nat) (pairs : List (Nat × Nat)) (l : Layout) (st : State σ) : Prop where
  books : Books width pairs st
  layout : st.layout = l
  inPlace : ∀ i, isExecuted pairs st.wires i = true → RunsInPlace d l pairs i

theorem unmoved_start (h : Proper width pairs) (o : Options) (l : Layout) (source : σ) :
    Unmoved d width pairs l ((Search.on d o).start width pairs l source) where
  books := Books.start h _ l source
  layout := rfl
  inPlace i hi := by
    have hno : isExecuted pairs (wiresOf width pairs) i = false := isExecuted_wiresOf h i
    cases hno.symm.trans hi

/-- A round executes what runs in place. -/
theorem Unmoved.round (hu : Unmoved d width pairs l st) (h : Proper width pairs) (o : Options) :
    Unmoved d width pairs l (((Search.on d o).executable pairs.toArray st).foldl (State.execute pairs.toArray) st) where
  books := (hu.books.foldl_executable h (.on d o)).1
  layout := (foldl_execute_keeps pairs.toArray _ st).1.trans hu.layout
  inPlace i hi := by
    rcases ((hu.books.foldl_executable h (.on d o)).2.2 i).mp hi with hi | hi
    · exact hu.inPlace i hi
    · rw [executable_eq] at hi
      obtain ⟨hfront, htogether⟩ := List.mem_filter.mp hi
      obtain ⟨hlt, -, hready⟩ := (hu.books.inStep.mem_front_iff h).mp hfront
      have hp := List.getElem?_eq_getElem hlt
      exact ⟨hp, (isTogether_iff hu.layout hp).mp htogether, fun j hj hs => hu.inPlace j (hready j hj hs)⟩

theorem Unmoved.drain (hu : Unmoved d width pairs l st) (h : Proper width pairs) (o : Options) (n : Nat) :
    Unmoved d width pairs l ((Search.on d o).drain pairs.toArray n st) := by
  induction n generalizing st with
  | zero => exact hu
  | succ n ih =>
    have hround := hu.round h o
    unfold Search.drain
    split
    · exact hu
    · rename_i g gs hgs
      rw [hgs] at hround
      exact ih hround

/-- When a round executes nothing, all that runs in place has been executed. -/
theorem Unmoved.isExecuted_iff (hu : Unmoved d width pairs l st) (h : Proper width pairs)
    (hnil : (Search.on d o).executable pairs.toArray st = []) :
    isExecuted pairs st.wires i = true ↔ RunsInPlace d l pairs i := by
  refine ⟨hu.inPlace i, fun hi => ?_⟩
  induction hi with
  | @intro i p hp hc _ ih =>
    by_contra hno
    have hlt := (List.getElem?_eq_some_iff.mp hp).1
    have hfront : i ∈ front pairs.toArray st.wires :=
      (hu.books.inStep.mem_front_iff h).mpr ⟨hlt, by simpa using hno, ih⟩
    rw [executable_eq, List.filter_eq_nil_iff] at hnil
    exact hnil i hfront ((isTogether_iff hu.layout hp).mpr hc)

/-- Then the obstacles are in front. -/
theorem Unmoved.mem_inFront_iff (hu : Unmoved d width pairs l st) (h : Proper width pairs)
    (hnil : (Search.on d o).executable pairs.toArray st = []) :
    p ∈ inFront pairs st ↔ ∃ i, IsObstacle d l pairs i p := by
  have hexecuted : ∀ j, isExecuted pairs st.wires j = true ↔ RunsInPlace d l pairs j :=
    fun j => hu.isExecuted_iff h hnil
  rw [mem_inFront]
  refine exists_congr fun i => ?_
  rw [hu.books.inStep.mem_front_iff h]
  constructor
  · rintro ⟨⟨hlt, hno, hready⟩, hp⟩
    have hready : ∀ j < i, Share pairs j i → RunsInPlace d l pairs j :=
      fun j hj hs => (hexecuted j).mp (hready j hj hs)
    refine ⟨hp, fun hc => ?_, hready⟩
    rw [(hexecuted i).mpr ⟨hp, hc, hready⟩] at hno
    cases hno
  · rintro ⟨hp, hapart, hready⟩
    refine ⟨⟨(List.getElem?_eq_some_iff.mp hp).1, ?_, fun j hj hs => (hexecuted j).mpr (hready j hj hs)⟩, hp⟩
    rw [← Bool.not_eq_true, hexecuted]
    exact fun hi => hapart (hi.couples hp)

/-- The state in which a simulation chooses its first SWAP, or ends without one. -/
def Search.opening (s : Search) (width : Nat) (pairs : List (Nat × Nat)) (l : Layout) (source : σ) : State σ :=
  s.drain pairs.toArray pairs.length (s.start width pairs l source)

theorem unmoved_opening (h : Proper width pairs) (d : Device) (o : Options) (l : Layout) (source : σ) :
    Unmoved d width pairs l ((Search.on d o).opening width pairs l source) ∧
      (Search.on d o).executable pairs.toArray ((Search.on d o).opening width pairs l source) = [] :=
  ⟨(unmoved_start h o l source).drain h o _, executable_drain _ h (Books.start h _ l source) (Nat.le_refl _)⟩

/-- Where all interactions are coupled there is nothing to choose. -/
theorem decides_of_couples (h : Proper width pairs) (o : Options) (source : σ) (hall : ∀ p ∈ pairs, Couples d l p) :
    (Search.on d o).Decides pairs ((Search.on d o).opening width pairs l source) := by
  obtain ⟨hu, hnil⟩ := unmoved_opening h d o l source
  intro hne
  refine absurd ((edgesBeside_eq_nil_iff rfl).mpr fun p hp => ?_) hne
  obtain ⟨i, hi⟩ := (hu.mem_inFront_iff h hnil).mp hp
  exact absurd hi (forall_couples_iff.mp hall i p)

/-! ## Simulations without a SWAP -/

variable [Source σ]

theorem swaps_le_run (s : Search) (hs : s.links = s.device.links) (pairs : Array (Nat × Nat)) (n : Nat) (st : State σ) :
    st.swaps ≤ (s.run pairs n st).swaps := by
  obtain ⟨xs, -, -, hswaps⟩ := moved_run hs pairs n st
  omega

/-- A simulation that may apply a SWAP applies none when nothing is left at its opening, or no SWAP is found. -/
theorem swaps_simulate_eq_zero_iff_opening (hlimit : 0 < (Search.on d o).limit pairs) (source : σ) :
    ((Search.on d o).simulate width pairs l source).swaps = 0 ↔
      ((Search.on d o).opening width pairs l source).remaining = 0 ∨
        (Search.on d o).move pairs.toArray ((Search.on d o).opening width pairs l source) = none := by
  obtain ⟨n, hn⟩ := Nat.exists_eq_succ_of_ne_zero (Nat.ne_of_gt hlimit)
  have hsimulate : (Search.on d o).simulate width pairs l source =
      (Search.on d o).run pairs.toArray (n + 1) ((Search.on d o).start width pairs l source) :=
    congrArg (fun k => (Search.on d o).run pairs.toArray k ((Search.on d o).start width pairs l source)) hn
  have hopening : ((Search.on d o).opening width pairs l source).swaps = 0 := (drain_keeps _ pairs.toArray _ _).2
  rw [hsimulate]
  show (if ((Search.on d o).opening width pairs l source).remaining = 0 then
      (Search.on d o).opening width pairs l source else _).swaps = 0 ↔ _
  split
  · rename_i h0
    exact ⟨fun _ => .inl h0, fun _ => hopening⟩
  · rename_i h0
    rw [or_iff_right h0]
    split
    · rename_i hm
      exact ⟨fun _ => hm, fun _ => hopening⟩
    · rename_i st' hm
      have hswaps := (wires_of_move hm).2.2
      have hle := swaps_le_run (Search.on d o) rfl pairs.toArray n st'
      constructor
      · intro hzero
        omega
      · intro hnone
        cases hm.symm.trans hnone

/-- Where there is an interaction of placed qubits, a SWAP may be applied. -/
theorem limit_pos (h : Proper width pairs) (o : Options) (hw : width ≤ l.size) (hon : l.OnDevice d) (hp : p ∈ pairs) :
    0 < (Search.on d o).limit pairs := by
  have hlt : p.1 < l.placement.length := (h p hp).2.1.trans_le hw
  exact Nat.mul_pos (List.length_pos_of_mem hp) (List.length_pos_of_mem (hon _ (List.getElem_mem hlt)))

/-- A simulation that can choose its first SWAP applies none exactly when all obstacles are cut off. -/
theorem swaps_simulate_eq_zero_iff (h : Proper width pairs) (hw : width ≤ l.size) (hon : l.OnDevice d) {source : σ}
    (hdecides : (Search.on d o).Decides pairs ((Search.on d o).opening width pairs l source)) :
    ((Search.on d o).simulate width pairs l source).swaps = 0 ↔ ∀ i p, IsObstacle d l pairs i p → IsCutOff d l p := by
  obtain ⟨hu, hnil⟩ := unmoved_opening h d o l source
  by_cases hlimit : 0 < (Search.on d o).limit pairs
  · rw [swaps_simulate_eq_zero_iff_opening hlimit, move_eq_none_iff hdecides, edgesBeside_eq_nil_iff rfl, hu.layout]
    constructor
    · rintro (hzero | hall) i p hi
      · -- nothing is left, so no obstacle either
        obtain ⟨g, hg, -⟩ := mem_inFront.mp ((hu.mem_inFront_iff h hnil).mpr ⟨i, hi⟩)
        obtain ⟨hlt, hno, -⟩ := (hu.books.inStep.mem_front_iff h).mp hg
        have hpos := List.length_pos_of_mem (mem_pending.mpr ⟨hlt, hno⟩)
        have hremaining := hu.books.remaining
        omega
      · exact hall p ((hu.mem_inFront_iff h hnil).mpr ⟨i, hi⟩)
    · refine fun hall => .inr fun p hp => ?_
      obtain ⟨i, hi⟩ := (hu.mem_inFront_iff h hnil).mp hp
      exact hall i p hi
  · have hle := swaps_simulate_le (Search.on d o) width pairs l source
    refine ⟨fun _ i p hi => ?_, fun _ => by omega⟩
    exact absurd (limit_pos h o hw hon (List.mem_of_getElem? hi.at_)) hlimit

/-- Where nothing is cut off, it applies none exactly when all interactions are coupled. -/
theorem swaps_simulate_eq_zero_iff_couples (h : Proper width pairs) (hw : width ≤ l.size) (hon : l.OnDevice d)
    {source : σ} (hdecides : (Search.on d o).Decides pairs ((Search.on d o).opening width pairs l source))
    (hnone : ∀ p ∈ pairs, ¬ IsCutOff d l p) :
    ((Search.on d o).simulate width pairs l source).swaps = 0 ↔ ∀ p ∈ pairs, Couples d l p := by
  rw [swaps_simulate_eq_zero_iff h hw hon hdecides, forall_couples_iff]
  constructor
  · exact fun hall i p hi => hnone p (List.mem_of_getElem? hi.at_) (hall i p hi)
  · exact fun hno i p hi => absurd hi (hno i p)

/-! ## Routing from the layout -/

variable {c : Circuit}

/-- All interactions of a circuit are on coupled nodes. -/
def AllTogether (d : Device) (l : Layout) (c : Circuit) : Prop :=
  ∀ g ∈ c.gates, g.IsInteraction → ∃ p q, l.ends g = some (p, q) ∧ d.adjacent p q = true

theorem couples_iff_ends {g : Gate} (hi : g.IsInteraction) (hq : g.qubits = [p.1, p.2]) :
    Couples d l p ↔ ∃ a b, l.ends g = some (a, b) ∧ d.adjacent a b = true := by
  refine exists_congr fun a => exists_congr fun b => ?_
  rw [← and_assoc]
  refine and_congr_left fun _ => ?_
  rw [Layout.ends_eq_some]
  constructor
  · rintro ⟨ha, hb⟩
    exact ⟨hi, p.1, p.2, hq, ha, hb⟩
  · rintro ⟨-, x, y, hxy, ha, hb⟩
    rw [hq] at hxy
    cases hxy
    exact ⟨ha, hb⟩

theorem forall_couples_iff_allTogether (hp : interactions c = .ok pairs) :
    (∀ p ∈ pairs, Couples d l p) ↔ AllTogether d l c := by
  constructor
  · intro h g hg hi
    obtain ⟨a, b, -, hab⟩ := Gate.qubits_of_isInteraction hi
    exact (couples_iff_ends (p := (a, b)) hi hab).mp (h _ ((mem_interactions hp).mpr ⟨g, hg, hi, hab⟩))
  · rintro h ⟨a, b⟩ hm
    obtain ⟨g, hg, hi, hab⟩ := (mem_interactions hp).mp hm
    exact (couples_iff_ends hi hab).mpr (h g hg hi)

/-- Qubits on different nodes that are linked are not cut off. -/
theorem not_isolated_of_linked {a b : Nat} (hne : a ≠ b) (h : d.Linked a b) : ¬ d.IsIsolated a := by
  intro hisolated
  rcases h.cases_head with heq | ⟨r, hadj, -⟩
  · exact hne heq
  · rw [hisolated r] at hadj
    cases hadj

/-- No interaction is cut off when none has both its qubits on nodes without couplings. -/
theorem not_isCutOff (hp : interactions c = .ok pairs) (hw : c.width ≤ l.size)
    (h : ∀ g ∈ c.gates, ∀ a b, l.ends g = some (a, b) → ¬ (d.IsIsolated a ∧ d.IsIsolated b)) :
    ∀ p ∈ pairs, ¬ IsCutOff d l p := by
  rintro ⟨x, y⟩ hm hcut
  obtain ⟨g, hg, hi, hxy⟩ := (mem_interactions hp).mp hm
  obtain ⟨a, b, he⟩ := Layout.exists_ends hi fun q hq => (c.forall_mem_gates g hg q hq).trans_le hw
  obtain ⟨-, x', y', hxy', ha, hb⟩ := Layout.ends_eq_some.mp he
  cases hxy.symm.trans hxy'
  exact h g hg a b he ⟨hcut a (.inl ha), hcut b (.inr hb)⟩

theorem AllTogether.inPlace (h : AllTogether d l c) (hp : interactions c = .ok pairs) :
    ∀ g ∈ c.gates, Routing.InPlace d l g :=
  fun g hg => ⟨(eq_filterMap_of_interactions hp).2 g hg, h g hg⟩

/-- A pass that reports no SWAP has found a layout of the circuit from which a simulation applied none. -/
theorem exists_simulate_of_reported {j j' : Journal} (h : Pass.placeSabre o c d (some j) = (.ok l, some j'))
    (hm : j'.metrics = j.metrics ++ [("layout_simulated_swaps", 0)]) :
    l.Fits d c.width ∧ ∃ pairs, interactions c = .ok pairs ∧
      ∃ source : Twister, ((Search.on d o).simulate c.width pairs l source).swaps = 0 := by
  obtain ⟨r, hr, rfl, hmetrics⟩ := exists_assign_of_placeSabre h
  have hzero : r.swaps = some 0 := by
    have hsame := List.append_cancel_left (hmetrics.symm.trans hm)
    unfold Pass.simulated at hsame
    cases hs : r.swaps with
    | none =>
      rw [hs] at hsame
      cases hsame
    | some n =>
      rw [hs] at hsame
      simpa using hsame
  obtain ⟨-, pairs, hp⟩ := checks_of_assignWith hr
  refine ⟨fits_of_assignWith hr, pairs, hp, ?_⟩
  rcases exists_simulate_of_assignWith hr hp with ⟨-, hnone⟩ | ⟨-, source, hswaps⟩
  · cases hnone.symm.trans hzero
  · exact ⟨source, Option.some.inj (hswaps.symm.trans hzero)⟩

/-- A simulation that can choose its first SWAP reports none exactly when every obstacle is cut off; so where nothing is
    cut off, exactly when all interactions are coupled. When the placing pass reports none, routing from its layout
    inserts no SWAP and all interactions are coupled there, if the circuit can be routed from it at all; and it can
    be, if no interaction has both its qubits on nodes without couplings. -/
theorem unswapped_is_in_place_or_cut_off {d : Device} {o : Options} :
    (∀ {σ : Type} [Source σ] {width : Nat} {pairs : List (Nat × Nat)} {l : Layout} {source : σ},
      Proper width pairs → width ≤ l.size → l.OnDevice d →
      (Search.on d o).Decides pairs ((Search.on d o).opening width pairs l source) →
      (((Search.on d o).simulate width pairs l source).swaps = 0 ↔
        ∀ i p, IsObstacle d l pairs i p → IsCutOff d l p) ∧
      ((∀ p ∈ pairs, ¬ IsCutOff d l p) →
        (((Search.on d o).simulate width pairs l source).swaps = 0 ↔ ∀ p ∈ pairs, Couples d l p))) ∧
    ∀ {c : Circuit} {l : Layout} {j j' : Journal}, Pass.placeSabre o c d (some j) = (.ok l, some j') →
      j'.metrics = j.metrics ++ [("layout_simulated_swaps", 0)] →
      (∀ pairs, interactions c = .ok pairs → ∀ source : Twister,
        (Search.on d o).Decides pairs ((Search.on d o).opening c.width pairs l source)) →
      (∀ o' r, Routing.route o' c d (some l) = .ok r → r.swaps = 0 ∧ AllTogether d l c) ∧
      ((∀ g ∈ c.gates, ∀ a b, l.ends g = some (a, b) → ¬ (d.IsIsolated a ∧ d.IsIsolated b)) →
        AllTogether d l c ∧ ∀ o', d.InWords → o'.swapFactor.isAmount = true →
          ∃ r, Routing.route o' c d (some l) = .ok r ∧ r.swaps = 0) := by
  refine ⟨?_, ?_⟩
  · intro σ _ width pairs l source h hw hon hdecides
    exact ⟨swaps_simulate_eq_zero_iff h hw hon hdecides, swaps_simulate_eq_zero_iff_couples h hw hon hdecides⟩
  · intro c l j j' hpass hm hdecides
    obtain ⟨⟨hsize, hon⟩, pairs, hp, source, hzero⟩ := exists_simulate_of_reported hpass hm
    have htogether : (∀ g ∈ c.gates, ∀ a b, l.ends g = some (a, b) → ¬ (d.IsIsolated a ∧ d.IsIsolated b)) →
        AllTogether d l c := by
      intro h
      refine (forall_couples_iff_allTogether hp).mp ?_
      exact (swaps_simulate_eq_zero_iff_couples (proper_interactions hp) hsize.ge hon (hdecides pairs hp source)
        (not_isCutOff hp hsize.ge h)).mp hzero
    refine ⟨fun o' r hr => ?_, fun h => ⟨htogether h, fun o' hd hamount => ?_⟩⟩
    · have hstart : r.initial = l := (Routing.routeWith_spec hr).2.1
      have hall : AllTogether d l c := htogether fun g hg a b he hcut => by
        exact not_isolated_of_linked (Layout.ne_of_ends he) (Routing.linked_of_route hr hg (hstart ▸ he)) hcut.1
      exact ⟨Routing.swaps_eq_zero_of_inPlace hr (hstart ▸ hall.inPlace hp), hall⟩
    · obtain ⟨r, htranslated, -, hswaps, -⟩ := Routing.exists_translated hsize hon
      have hstart : Routing.IsStart c d (some l) l := rfl
      have hc := (htogether h).inPlace hp
      exact ⟨r, Routing.routeWith_of_inPlace hd hstart hsize hon hamount hc _ htranslated, hswaps⟩

/-- Two qubits that have to be brought together. -/
def lonePair : Circuit where
  width := 2
  entries := Circuit.number [⟨.swap, [0, 1], [], by decide⟩]
  width_pos := Nat.zero_lt_two
  in_range := by decide

/-- What a search reports for them when no simulation applies a SWAP, and what the placing pass does then. -/
theorem exists_reported_lonePair {d : Device} (hd : d.InWords) (hlen : 2 ≤ d.nodes.length)
    (h : ∀ (l : Layout) (source : Twister), l.Fits d 2 → ((Search.on d {}).simulate 2 [(0, 1)] l source).swaps = 0) :
    ∃ l j', Pass.placeSabre {} lonePair d (some .empty) = (.ok l, some j') ∧
      j'.metrics = [("layout_simulated_swaps", 0)] ∧ l.Fits d 2 := by
  have hp : interactions lonePair = .ok [(0, 1)] := by decide
  have hc : Placement.checkFits lonePair d = .ok () := by
    have hempty : d.isEmpty = false := List.isEmpty_eq_false_iff.mpr (List.ne_nil_of_length_pos (by omega))
    have hwidth : ¬ d.nodes.length < lonePair.width := Nat.not_lt.mpr hlen
    unfold Placement.checkFits
    rw [hempty, if_neg hwidth]
    rfl
  obtain ⟨r, hr, hfits⟩ := exists_assignWith hc hp {} (Twister.ofSeed 0)
  obtain ⟨j', hpass, hmetrics⟩ := placeSabre_of_assign hd hr .empty
  refine ⟨r.layout, j', hpass, ?_, hfits⟩
  rcases exists_simulate_of_assignWith hr hp with ⟨hnil, -⟩ | ⟨-, source, hswaps⟩
  · cases hnil
  · have hzero : r.swaps = some 0 := hswaps.trans (congrArg some (h r.layout source hfits))
    rw [hmetrics, Pass.simulated, hzero]
    rfl

/-- On two nodes that are not coupled no SWAP is reported, though the pair is apart and cannot be routed. -/
theorem cut_off_pair_is_reported_without_swaps :
    ((Search.on (.isolated 2) {}).simulate 2 [(0, 1)] (Layout.identity 2) Lowest.mk).swaps = 0 ∧
    ¬ Couples (.isolated 2) (.identity 2) (0, 1) ∧
    ∃ l j', Pass.placeSabre {} lonePair (.isolated 2) (some .empty) = (.ok l, some j') ∧
      j'.metrics = [("layout_simulated_swaps", 0)] ∧ ¬ AllTogether (.isolated 2) l lonePair ∧
      ∀ o r, Routing.route o lonePair (.isolated 2) (some l) ≠ .ok r := by
  have hapart := Device.adjacent_isolated 2
  have hon : (Search.on (.isolated 2) {}).links = (Search.on (.isolated 2) {}).device.links := rfl
  refine ⟨swaps_simulate_of_no_coupling hon hapart 2 _ _ _, ?_, ?_⟩
  · rintro ⟨a, b, -, -, hadj⟩
    cases (hapart a b).symm.trans hadj
  · have hwords : (Device.isolated 2).InWords := by unfold Device.InWords; decide
    obtain ⟨l, j', hpass, hmetrics, hsize, -⟩ := exists_reported_lonePair hwords (by decide)
      fun l source _ => swaps_simulate_of_no_coupling hon hapart 2 _ l source
    obtain ⟨g, hm, hi⟩ : ∃ g ∈ lonePair.gates, g.IsInteraction := by decide
    have hplaced : ∀ q ∈ g.qubits, q < l.size := fun q hq => hsize ▸ lonePair.forall_mem_gates g hm q hq
    obtain ⟨a, b, he⟩ := Layout.exists_ends hi hplaced
    refine ⟨l, j', hpass, hmetrics, fun hall => ?_, fun o r hr => ?_⟩
    · obtain ⟨p, q, -, hadj⟩ := hall g hm hi
      cases (hapart p q).symm.trans hadj
    · have hstart : r.initial = l := (Routing.routeWith_spec hr).2.1
      have hlinked := Routing.linked_of_route hr hm (hstart ▸ he)
      exact not_isolated_of_linked (Layout.ne_of_ends he) hlinked (hapart a)

/-- Two nodes that are coupled. -/
def coupledPair : Device := ⟨[0, 1], [⟨0, 1⟩], by decide, by decide, by decide⟩

theorem couples_coupledPair {l : Layout} (h : l.Fits coupledPair 2) : Couples coupledPair l (0, 1) := by
  obtain ⟨hsize, hon⟩ := h
  have ha : 0 < l.placement.length := by rw [show l.placement.length = 2 from hsize]; exact Nat.zero_lt_two
  have hb : 1 < l.placement.length := by rw [show l.placement.length = 2 from hsize]; exact Nat.one_lt_two
  have hne : l.placement[0] ≠ l.placement[1] := fun e => by
    have := (List.Nodup.getElem_inj_iff l.nodup).mp e
    omega
  have hall : ∀ a ∈ coupledPair.nodes, ∀ b ∈ coupledPair.nodes, a ≠ b → coupledPair.adjacent a b = true := by decide
  exact ⟨_, _, List.getElem?_eq_getElem ha, List.getElem?_eq_getElem hb,
    hall _ (hon _ (List.getElem_mem ha)) _ (hon _ (List.getElem_mem hb)) hne⟩

/-- On a row the first of the tangled interactions is an obstacle, and not cut off; on a coupled pair none is left. -/
theorem unswapped_is_in_place_or_cut_off_tangled :
    Proper 4 tangled ∧ 4 ≤ scattered.size ∧ scattered.OnDevice fiveInARow ∧
    (Search.on fiveInARow {}).Decides tangled ((Search.on fiveInARow {}).opening 4 tangled scattered Lowest.mk) ∧
    (∃ i p, IsObstacle fiveInARow scattered tangled i p ∧ ¬ IsCutOff fiveInARow scattered p) ∧
    ∃ l j', Pass.placeSabre {} lonePair coupledPair (some .empty) = (.ok l, some j') ∧
      j'.metrics = [("layout_simulated_swaps", 0)] ∧ AllTogether coupledPair l lonePair ∧
      ∃ r, Routing.route {} lonePair coupledPair (some l) = .ok r ∧ r.swaps = 0 := by
  have hproper : Proper 4 tangled := by unfold Proper; decide
  have hon : scattered.OnDevice fiveInARow := by unfold Layout.OnDevice; decide
  have hdecides : (Search.on fiveInARow {}).Decides tangled
      ((Search.on fiveInARow {}).opening 4 tangled scattered Lowest.mk) :=
    fun _ => ⟨⟨2, 3⟩, by decide +kernel, by decide +kernel⟩
  refine ⟨hproper, by decide, hon, hdecides, ?_, ?_⟩
  · have hfour : ((Search.on fiveInARow {}).simulate 4 tangled scattered Lowest.mk).swaps = 4 := by decide +kernel
    have hiff := (unswapped_is_in_place_or_cut_off.1 hproper (by decide) hon hdecides).1
    by_contra hno
    have hzero := hiff.mpr fun i p hi => by_contra fun hcut => hno ⟨i, p, hi, hcut⟩
    omega
  · have hlone : Proper 2 [(0, 1)] := by unfold Proper; decide
    have hwords : coupledPair.InWords := by unfold Device.InWords; decide
    have hall : ∀ {l : Layout}, l.Fits coupledPair 2 → ∀ p ∈ [((0 : Nat), (1 : Nat))], Couples coupledPair l p :=
      fun hfits => List.forall_mem_singleton.mpr (couples_coupledPair hfits)
    have hdecides : ∀ {l : Layout} (source : Twister), l.Fits coupledPair 2 →
        (Search.on coupledPair {}).Decides [(0, 1)] ((Search.on coupledPair {}).opening 2 [(0, 1)] l source) :=
      fun source hfits => decides_of_couples hlone {} source (hall hfits)
    have hzero : ∀ (l : Layout) (source : Twister), l.Fits coupledPair 2 →
        ((Search.on coupledPair {}).simulate 2 [(0, 1)] l source).swaps = 0 := by
      intro l source hfits
      refine (swaps_simulate_eq_zero_iff hlone hfits.1.ge hfits.2 (hdecides source hfits)).mpr fun i p hi => ?_
      exact absurd hi (forall_couples_iff.mp (hall hfits) i p)
    obtain ⟨l, j', hpass, hmetrics, hfits⟩ := exists_reported_lonePair hwords (by decide) hzero
    have hreported := unswapped_is_in_place_or_cut_off.2 hpass hmetrics fun pairs hp source => by
      cases (show interactions lonePair = .ok [(0, 1)] by decide).symm.trans hp
      exact hdecides source hfits
    have hcoupled : ∀ p ∈ coupledPair.nodes, ¬ coupledPair.IsIsolated p := by
      intro p hp hisolated
      have hnext : ∀ p ∈ coupledPair.nodes, ∃ q ∈ coupledPair.nodes, coupledPair.adjacent p q = true := by decide
      obtain ⟨q, -, hadj⟩ := hnext p hp
      cases (hisolated q).symm.trans hadj
    obtain ⟨htogether, hroutes⟩ := hreported.2 fun g _ a b he hcut =>
      hcoupled a (Layout.mem_nodes_of_ends hfits.2 he).1 hcut.1
    exact ⟨l, j', hpass, hmetrics, htogether, hroutes {} hwords (by decide +kernel)⟩

end Sabre

end CircuitMapping
