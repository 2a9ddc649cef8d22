/-
  CircuitMapping.Proofs.Placement.Trials — which of the layouts that a search tries it returns.

  The interactions of a circuit are its gates of the three operations on two qubits, in program order
  (`eq_filterMap_of_interactions`). Each trial ends with a layout of the circuit on nodes of the device, whose score
  is the number of SWAPs of a simulation from it, and so within the limit (`found_of_trial`). The trials are made one
  after the other (`Search.candidatesOf`), and a candidate replaces the one kept when it is better (`better`); since
  this never takes one with more SWAPs, the one kept in the end has the fewest (`foldl_better`), however distances
  compare.

  A search that began with no layout at all, and with the highest scores there are, would find the same: as long as
  the limit is less than the highest word, the first trial already replaces it (`foldl_better_unplaced`).
-/
import CircuitMapping.Proofs.Gate.Kinds
import CircuitMapping.Proofs.Journal.Passes
import CircuitMapping.Proofs.Placement.LiveTables

namespace CircuitMapping

open Success

/-! ## The interactions of a circuit -/

namespace Sabre

/-- The qubits of an interaction. -/
def pair? (g : Gate) : Option (Nat × Nat) :=
  match g.qubits with
  | [a, b] => if g.IsInteraction then some (a, b) else none
  | _ => none

theorem pair?_eq_some {g : Gate} {p : Nat × Nat} : pair? g = some p ↔ g.IsInteraction ∧ g.qubits = [p.1, p.2] := by
  unfold pair?
  constructor
  · intro h
    split at h
    · rename_i a b hab
      split at h
      · rename_i hi
        cases h
        exact ⟨hi, hab⟩
      · cases h
    · cases h
  · rintro ⟨hi, hq⟩
    rw [hq]
    exact if_pos hi

theorem isSome_pair? (g : Gate) : (pair? g).isSome = decide g.IsInteraction := by
  rw [Bool.eq_iff_iff, decide_eq_true_iff, Option.isSome_iff_exists]
  constructor
  · rintro ⟨p, hp⟩
    exact (pair?_eq_some.mp hp).1
  · intro hi
    obtain ⟨a, b, -, hab⟩ := Gate.qubits_of_isInteraction hi
    exact ⟨(a, b), pair?_eq_some.mpr ⟨hi, hab⟩⟩

variable {c : Circuit} {pairs : List (Nat × Nat)}

/-- They are found in program order, and every gate had to have a kind for that. -/
theorem eq_filterMap_of_interactions (h : interactions c = .ok pairs) :
    pairs = c.gates.filterMap pair? ∧ ∀ g ∈ c.gates, ¬ g.IsTooWide := by
  constructor
  · have happend := foldlM_appends (v := id) (w := fun g => (pair? g).toList) (fun ps g ps' hg => ?_) h
    · rw [List.filterMap_eq_flatMap_toList]
      exact happend
    · obtain ⟨k, hk, hg⟩ := bind_eq_ok.mp hg
      have hneeds := Gate.needsAdjacency_iff hk
      split at hg
      · rename_i a b hn hab
        cases pure_eq_ok.mp hg
        rw [(pair?_eq_some (p := (a, b))).mpr ⟨hneeds.mp hn, hab⟩]
        rfl
      · rename_i hno
        cases pure_eq_ok.mp hg
        have hnone : pair? g = none := by
          refine Option.eq_none_iff_forall_ne_some.mpr fun p hp => ?_
          obtain ⟨hi, hq⟩ := pair?_eq_some.mp hp
          exact hno p.1 p.2 (hneeds.mpr hi) hq
        rw [hnone]
        exact (List.append_nil ps).symm
  · intro g hg
    obtain ⟨ps, ps', hstep⟩ := exists_step_of_foldlM h hg
    obtain ⟨k, hk, -⟩ := bind_eq_ok.mp hstep
    exact Gate.not_isTooWide_of_kind hk

theorem mem_interactions (h : interactions c = .ok pairs) {a b : Nat} :
    (a, b) ∈ pairs ↔ ∃ g ∈ c.gates, g.IsInteraction ∧ g.qubits = [a, b] := by
  rw [(eq_filterMap_of_interactions h).1, List.mem_filterMap]
  exact exists_congr fun g => and_congr Iff.rfl pair?_eq_some

theorem length_interactions (h : interactions c = .ok pairs) :
    pairs.length = c.gates.countP fun g => decide g.IsInteraction := by
  rw [(eq_filterMap_of_interactions h).1, List.length_filterMap_eq_countP]
  exact List.countP_congr fun g _ => by rw [isSome_pair?]

theorem proper_interactions (h : interactions c = .ok pairs) : Proper c.width pairs := by
  rintro ⟨a, b⟩ hp
  obtain ⟨g, hg, -, hq⟩ := (mem_interactions h).mp hp
  have hne := g.nodup
  have hlt := c.forall_mem_gates g hg
  rw [hq] at hne hlt
  exact ⟨by simpa using hne, hlt a (by simp), hlt b (by simp)⟩

/-! ## Trials -/

variable {σ : Type} [Source σ] {d : Device} {s : Search} {width : Nat}

/-- A layout of `width` qubits on nodes of the device, scored by the SWAPs of some simulation from it. -/
structure Found (σ : Type) [Source σ] (s : Search) (width : Nat) (pairs : List (Nat × Nat)) (k : Candidate) : Prop where
  fits : k.layout.Fits s.device width
  swaps : ∃ source : σ, (s.simulate width pairs k.layout source).swaps = k.score.swaps

theorem Found.swaps_le {k : Candidate} (h : Found σ s width pairs k) : k.score.swaps ≤ s.limit pairs := by
  obtain ⟨source, hswaps⟩ := h.swaps
  rw [← hswaps]
  exact swaps_simulate_le s width pairs k.layout source

theorem found_of_trial (hs : s.links = s.device.links) (hw : width ≤ s.device.nodes.length) {source source' : σ}
    {k : Candidate} (h : s.trial width pairs source = .ok (k, source')) : Found σ s width pairs k where
  fits := by
    obtain ⟨r, hr, hfits⟩ := exists_trial hs hw pairs source
    cases h.symm.trans hr
    exact hfits
  swaps := by
    obtain ⟨start, -, h⟩ := bind_eq_ok.mp h
    cases pure_eq_ok.mp h
    exact ⟨_, rfl⟩

/-- The better of the candidate kept so far and the next one. -/
def better (best next : Candidate) : Candidate := if next.score.isBetter best.score then next else best

/-- The candidates of some trials, one after the other. -/
def Search.candidatesOf (s : Search) (width : Nat) (pairs : List (Nat × Nat)) : Nat → σ → Except Error (List Candidate)
  | 0, _ => .ok []
  | n + 1, source => do
    let (k, source) ← s.trial width pairs source
    return k :: (← s.candidatesOf width pairs n source)

theorem exists_candidatesOf_of_trials {n : Nat} {best r : Candidate} {source : σ}
    (h : s.trials width pairs n best source = .ok r) :
    ∃ ks, s.candidatesOf width pairs n source = .ok ks ∧ r = ks.foldl better best := by
  induction n generalizing best source with
  | zero =>
    cases h
    exact ⟨[], rfl, rfl⟩
  | succ n ih =>
    obtain ⟨⟨k, source'⟩, hk, h⟩ := bind_eq_ok.mp h
    obtain ⟨ks, hks, hr⟩ := ih h
    exact ⟨k :: ks, bind_eq_ok.mpr ⟨_, hk, bind_eq_ok.mpr ⟨ks, hks, rfl⟩⟩, hr⟩

theorem found_of_candidatesOf (hs : s.links = s.device.links) (hw : width ≤ s.device.nodes.length) {n : Nat}
    {source : σ} {ks : List Candidate} (h : s.candidatesOf width pairs n source = .ok ks) :
    ks.length = n ∧ ∀ k ∈ ks, Found σ s width pairs k := by
  induction n generalizing source ks with
  | zero =>
    cases h
    exact ⟨rfl, List.forall_mem_nil _⟩
  | succ n ih =>
    obtain ⟨⟨k, source'⟩, hk, h⟩ := bind_eq_ok.mp h
    obtain ⟨rest, hrest, h⟩ := bind_eq_ok.mp h
    cases pure_eq_ok.mp h
    obtain ⟨hlen, hfound⟩ := ih hrest
    exact ⟨congrArg (· + 1) hlen, List.forall_mem_cons.mpr ⟨found_of_trial hs hw hk, hfound⟩⟩

/-! ## The candidate that is kept -/

theorem Score.le_of_isBetter {a b : Score} (h : a.isBetter b = true) : a.swaps ≤ b.swaps := by
  unfold isBetter at h
  split at h
  · rename_i heq
    exact Nat.le_of_eq heq
  · exact Nat.le_of_lt (of_decide_eq_true h)

theorem Score.le_of_not_isBetter {a b : Score} (h : ¬ a.isBetter b = true) : b.swaps ≤ a.swaps := by
  unfold isBetter at h
  split at h
  · rename_i heq
    exact Nat.le_of_eq heq.symm
  · exact Nat.le_of_not_lt fun hlt => h (decide_eq_true hlt)

theorem swaps_better_le (best next : Candidate) :
    (better best next).score.swaps ≤ best.score.swaps ∧ (better best next).score.swaps ≤ next.score.swaps := by
  unfold better
  split
  · rename_i h
    exact ⟨Score.le_of_isBetter h, Nat.le_refl _⟩
  · rename_i h
    exact ⟨Nat.le_refl _, Score.le_of_not_isBetter h⟩

theorem better_eq (best next : Candidate) : better best next = best ∨ better best next = next := by
  unfold better
  split
  · exact .inr rfl
  · exact .inl rfl

/-- What is kept is one of the candidates, and none has fewer SWAPs. -/
theorem foldl_better (best : Candidate) (ks : List Candidate) :
    ks.foldl better best ∈ best :: ks ∧ ∀ k ∈ best :: ks, (ks.foldl better best).score.swaps ≤ k.score.swaps := by
  induction ks generalizing best with
  | nil => exact ⟨List.mem_cons_self .., List.forall_mem_singleton.mpr (Nat.le_refl _)⟩
  | cons k ks ih =>
    obtain ⟨hmem, hle⟩ := ih (better best k)
    obtain ⟨hkept, hle⟩ := List.forall_mem_cons.mp hle
    obtain ⟨hbest, hnext⟩ := swaps_better_le best k
    rw [List.foldl_cons]
    constructor
    · rcases List.mem_cons.mp hmem with heq | hmem
      · rw [heq]
        rcases better_eq best k with h | h <;> simp [h]
      · exact List.mem_cons_of_mem _ (List.mem_cons_of_mem _ hmem)
    · exact List.forall_mem_cons.mpr ⟨hkept.trans hbest, List.forall_mem_cons.mpr ⟨hkept.trans hnext, hle⟩⟩

/-- No layout at all, with the highest scores. -/
def unplaced : Candidate := ⟨.empty, ⟨Word.count - 1, 1 / 0⟩⟩

/-- Any candidate with fewer SWAPs than the highest word replaces it. -/
theorem foldl_better_unplaced {k : Candidate} (h : k.score.swaps < Word.count - 1) (ks : List Candidate) :
    (k :: ks).foldl better unplaced = ks.foldl better k := by
  have hne : k.score.swaps ≠ Word.count - 1 := Nat.ne_of_lt h
  have hbetter : k.score.isBetter unplaced.score = true := (if_neg hne).trans (decide_eq_true h)
  exact congrArg (ks.foldl better) (if_pos hbetter)

/-! ## What a search returns -/

theorem assignWith_cases {o : Options} {source : σ} {r : Outcome} (h : assignWith o source c d = .ok r)
    (hp : interactions c = .ok pairs) :
    pairs = [] ∧ r.swaps = none ∨ ∃ first rest, pairs ≠ [] ∧
      (Search.on d o).candidatesOf c.width pairs (max 1 o.trials) source = .ok (first :: rest) ∧
      r = ⟨(rest.foldl better first).layout, some (rest.foldl better first).score.swaps⟩ := by
  obtain ⟨_, -, h⟩ := bind_eq_ok.mp h
  obtain ⟨pairs', hp', h⟩ := bind_eq_ok.mp h
  cases hp.symm.trans hp'
  split at h
  · rename_i hempty
    obtain ⟨l, -, h⟩ := bind_eq_ok.mp h
    cases pure_eq_ok.mp h
    exact .inl ⟨List.isEmpty_iff.mp hempty, rfl⟩
  · rename_i hempty
    obtain ⟨⟨first, source'⟩, hfirst, h⟩ := bind_eq_ok.mp h
    obtain ⟨best, hbest, h⟩ := bind_eq_ok.mp h
    cases pure_eq_ok.mp h
    obtain ⟨rest, hrest, rfl⟩ := exists_candidatesOf_of_trials (s := .on d o) hbest
    refine .inr ⟨first, rest, fun e => hempty (List.isEmpty_iff.mpr e), ?_, rfl⟩
    have hn : max 1 o.trials = (o.trials - 1) + 1 := by omega
    rw [hn]
    exact bind_eq_ok.mpr ⟨_, hfirst, bind_eq_ok.mpr ⟨rest, hrest, rfl⟩⟩

/-- The SWAPs reported are those of a simulation from the layout returned. -/
theorem exists_simulate_of_assignWith {o : Options} {source : σ} {r : Outcome} (h : assignWith o source c d = .ok r)
    (hp : interactions c = .ok pairs) :
    pairs = [] ∧ r.swaps = none ∨ pairs ≠ [] ∧ ∃ source' : σ,
      r.swaps = some ((Search.on d o).simulate c.width pairs r.layout source').swaps := by
  obtain ⟨hc, -⟩ := checks_of_assignWith h
  rcases assignWith_cases h hp with hnone | ⟨first, rest, hne, hks, rfl⟩
  · exact .inl hnone
  · obtain ⟨-, hfound⟩ := found_of_candidatesOf (s := .on d o) rfl (width_le_of_checkFits hc) hks
    obtain ⟨source', hswaps⟩ := (hfound _ (foldl_better first rest).1).swaps
    exact .inr ⟨hne, source', congrArg some hswaps.symm⟩

/-- The layout and the metrics of the placing pass are those of a search. -/
theorem exists_assign_of_placeSabre {o : Options} {l : Layout} {j j' : Journal}
    (h : Pass.placeSabre o c d (some j) = (.ok l, some j')) :
    ∃ r, assign o c d = .ok r ∧ r.layout = l ∧ j'.metrics = j.metrics ++ Pass.simulated r := by
  unfold Pass.placeSabre Report.run at h
  cases hr : assign o c d with
  | error e =>
    rw [hr] at h
    cases h
  | ok r =>
    rw [hr] at h
    dsimp only at h
    cases hrecord : Pass.placed "SabreLayoutPass" c d r.layout with
    | error e =>
      rw [hrecord] at h
      cases h
    | ok record =>
      rw [hrecord] at h
      cases h
      refine ⟨r, rfl, rfl, ?_⟩
      exact congrArg Journal.metrics (Report.appendTo_eq ⟨record, Pass.simulated r⟩ j)

theorem placeSabre_of_assign (hd : d.InWords) {o : Options} {r : Outcome} (h : assign o c d = .ok r) (j : Journal) :
    ∃ j', Pass.placeSabre o c d (some j) = (.ok r.layout, some j') ∧ j'.metrics = j.metrics ++ Pass.simulated r := by
  obtain ⟨hsize, hon⟩ := fits_of_assignWith h
  obtain ⟨record, hrecord⟩ := Pass.exists_placed hd hsize.ge hon "SabreLayoutPass"
  refine ⟨Report.appendTo ⟨record, Pass.simulated r⟩ j, ?_, congrArg Journal.metrics (Report.appendTo_eq _ j)⟩
  unfold Pass.placeSabre Report.run
  rw [h]
  dsimp only
  rw [hrecord]
  rfl

/-- A search returns a layout of all qubits of the circuit on different nodes of the device. Where there is an
    interaction, it is the candidate of one of the trials, of which there is at least one, and it is reported with its
    SWAPs: these are within the limit, and no trial had fewer. Beginning with no layout at all would make no
    difference. The placing pass returns this layout, and these SWAPs are its metric. -/
theorem search_returns_best_trial {o : Options} {source : σ} {r : Outcome} (h : assignWith o source c d = .ok r) :
    (r.layout.placement.length = c.width ∧ r.layout.placement.Nodup ∧ ∀ p ∈ r.layout.placement, p ∈ d.nodes) ∧
    ((∀ g ∈ c.gates, ¬ g.IsInteraction) → r.swaps = none) ∧
    ((∃ g ∈ c.gates, g.IsInteraction) → ∃ pairs ks, ∃ k ∈ ks, interactions c = .ok pairs ∧
      (Search.on d o).candidatesOf c.width pairs (max 1 o.trials) source = .ok ks ∧ ks.length = max 1 o.trials ∧
      (∀ k' ∈ ks, Found σ (.on d o) c.width pairs k') ∧
      r.layout = k.layout ∧ r.swaps = some k.score.swaps ∧ (∀ k' ∈ ks, k.score.swaps ≤ k'.score.swaps) ∧
      k.score.swaps ≤ (c.gates.countP fun g => decide g.IsInteraction) * d.nodes.length ∧
      ((c.gates.countP fun g => decide g.IsInteraction) * d.nodes.length < Word.count - 1 →
        ks.foldl better unplaced = k)) ∧
    ∀ (l : Layout) (j j' : Journal), Pass.placeSabre o c d (some j) = (.ok l, some j') →
      ∃ r', assign o c d = .ok r' ∧ r'.layout = l ∧ j'.metrics = j.metrics ++ Pass.simulated r' := by
  obtain ⟨hsize, hon⟩ := fits_of_assignWith h
  obtain ⟨hc, pairs, hp⟩ := checks_of_assignWith h
  have hlength := length_interactions hp
  refine ⟨⟨hsize, r.layout.nodup, hon⟩, fun hno => ?_, ?_, fun l j j' => exists_assign_of_placeSabre⟩
  · rcases assignWith_cases h hp with ⟨-, hnone⟩ | ⟨-, -, hne, -, -⟩
    · exact hnone
    · obtain ⟨⟨a, b⟩, hm⟩ := List.exists_mem_of_ne_nil pairs hne
      obtain ⟨g, hg, hi, -⟩ := (mem_interactions hp).mp hm
      exact absurd hi (hno g hg)
  · rintro ⟨g, hg, hi⟩
    obtain ⟨a, b, -, hab⟩ := Gate.qubits_of_isInteraction hi
    have hm : (a, b) ∈ pairs := (mem_interactions hp).mpr ⟨g, hg, hi, hab⟩
    rcases assignWith_cases h hp with ⟨hnil, -⟩ | ⟨first, rest, -, hks, rfl⟩
    · rw [hnil] at hm
      cases hm
    · obtain ⟨hlen, hfound⟩ := found_of_candidatesOf rfl (width_le_of_checkFits hc) hks
      obtain ⟨hmem, hle⟩ := foldl_better first rest
      have hlimit : ∀ k ∈ first :: rest, k.score.swaps ≤
          (c.gates.countP fun g => decide g.IsInteraction) * d.nodes.length := by
        intro k hk
        rw [← hlength]
        exact (hfound k hk).swaps_le
      refine ⟨pairs, first :: rest, rest.foldl better first, hmem, hp, hks, hlen, hfound, rfl, rfl, hle,
        hlimit _ hmem, fun hlt => ?_⟩
      exact foldl_better_unplaced (Nat.lt_of_le_of_lt (hlimit first (List.mem_cons_self ..)) hlt) rest

/-- A source that draws one number after the other. -/
structure Counter where
  next : Nat
  deriving DecidableEq, Repr

instance : Source Counter := ⟨fun n s => (s.next % n, ⟨s.next + 1⟩), fun _ s hn => Nat.mod_lt s.next hn⟩

/-- The first of two trials leads to two SWAPs, the second to one. -/
theorem search_returns_best_trial_allMeet :
    (∃ g ∈ Routing.allMeet.gates, g.IsInteraction) ∧
    (Routing.allMeet.gates.countP fun g => decide g.IsInteraction) * Routing.fourInARow.nodes.length < Word.count - 1 ∧
    ∃ r, assignWith { trials := 2, lookAhead := 0 } (Counter.mk 2) Routing.allMeet Routing.fourInARow = .ok r ∧
      r.swaps = some 1 ∧ ∃ pairs ks, ∃ k ∈ ks, interactions Routing.allMeet = .ok pairs ∧
        (Search.on Routing.fourInARow { trials := 2, lookAhead := 0 }).candidatesOf 3 pairs 2 (Counter.mk 2) = .ok ks ∧
        r.layout = k.layout ∧ k.score.swaps = 1 ∧ ks.foldl better unplaced = k := by
  have hinteracts : ∃ g ∈ Routing.allMeet.gates, g.IsInteraction := by decide
  have hlimit : (Routing.allMeet.gates.countP fun g => decide g.IsInteraction) *
      Routing.fourInARow.nodes.length < Word.count - 1 := by
    decide
  obtain ⟨r, hr, hswaps⟩ := exists_ok_of_map
    (x := assignWith { trials := 2, lookAhead := 0 } (Counter.mk 2) Routing.allMeet Routing.fourInARow)
    (f := (·.swaps)) (b := some 1) (by decide +kernel)
  obtain ⟨-, -, hbest, -⟩ := search_returns_best_trial hr
  obtain ⟨pairs, ks, k, hk, hp, hks, -, -, hl, hs, -, -, hfold⟩ := hbest hinteracts
  have hone : k.score.swaps = 1 := Option.some.inj (hs.symm.trans hswaps)
  exact ⟨hinteracts, hlimit, r, hr, hswaps, pairs, ks, k, hk, hp, hks, hl, hone, hfold hlimit⟩

end Sabre

end CircuitMapping
