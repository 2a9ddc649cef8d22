/-
  CircuitMapping.Proofs.Routing.Feasibility — which circuits can be routed, and where routing stops on the others.

  Routing a circuit needs gates that are not too wide, interactions of qubits in one component of the device, and a
  budget for all SWAPs (`Feasible`). Components can be read off the first layout, since SWAPs on couplings move no
  qubit out of its component (`Layout.Drifts`). Whatever was drawn on the way, this is also enough
  (`foldlM_of_feasible`), and where it fails, routing stops at the first gate that it fails at, with the error that
  tells why (`Stops`): nothing else goes wrong (`route_stops_at_first_obstacle`).
-/
import CircuitMapping.Proofs.Routing.Course

namespace CircuitMapping

open Success

/-! ## Qubits stay in their component -/

/-- Every occupant of the first layout sits in the same component in the second. -/
def Layout.Drifts (d : Device) (l l' : Layout) : Prop :=
  ∀ i p : Nat, l.placement[i]? = some p → ∃ p' : Nat, l'.placement[i]? = some p' ∧ d.Linked p p'

namespace Layout

variable {d : Device} {l l' : Layout}

theorem Drifts.refl (d : Device) (l : Layout) : l.Drifts d l := fun _ p hp => ⟨p, hp, .refl⟩

theorem linked_transpose {a b : Nat} (h : d.adjacent a b = true) (p : Nat) : d.Linked p (transpose a b p) := by
  unfold transpose
  split
  · rename_i e
    exact e ▸ Device.linked_of_adjacent h
  · split
    · rename_i e
      exact e ▸ Device.linked_of_adjacent ((d.adjacent_comm b a).trans h)
    · exact .refl

theorem linked_carry {xs : List Exchange} (h : ∀ x ∈ xs, d.adjacent x.a x.b = true) (p : Nat) :
    d.Linked p (Exchange.carry xs p) := by
  induction xs generalizing p with
  | nil => exact .refl
  | cons x xs ih =>
    rw [Exchange.carry_cons]
    exact (linked_transpose (h x (List.mem_cons_self ..)) p).trans (ih (fun y hy => h y (List.mem_cons_of_mem x hy)) _)

theorem Drifts.exchanged (h : l.Drifts d l') {xs : List Exchange} (hx : ∀ x ∈ xs, d.adjacent x.a x.b = true) :
    l.Drifts d (l'.after xs) := by
  intro i p hp
  obtain ⟨p', hp', hl⟩ := h i p hp
  exact ⟨_, getElem?_after hp' xs, hl.trans (linked_carry hx p')⟩

/-- The ends of an interaction are linked now if they were at first. -/
theorem Drifts.linked_iff (h : l.Drifts d l') {g : Gate} {p q p' q' : Nat} (he : l.ends g = some (p, q))
    (he' : l'.ends g = some (p', q')) : d.Linked p' q' ↔ d.Linked p q := by
  obtain ⟨-, a, b, hab, hp, hq⟩ := ends_eq_some.mp he
  obtain ⟨-, a', b', hab', hp', hq'⟩ := ends_eq_some.mp he'
  rw [hab] at hab'
  cases hab'
  obtain ⟨p₁, hp₁, hlp⟩ := h a p hp
  obtain ⟨q₁, hq₁, hlq⟩ := h b q hq
  obtain rfl : p₁ = p' := Option.some.inj (hp₁.symm.trans hp')
  obtain rfl : q₁ = q' := Option.some.inj (hq₁.symm.trans hq')
  exact ⟨fun hl => hlp.trans (hl.trans hlq.symm), fun hl => hlp.symm.trans (hl.trans hlq)⟩

end Layout

namespace Routing

variable {σ : Type} [Source σ] {d : Device} {n limit : Nat} {start : Layout}

/-! ## What routing needs, and what stops it -/

/-- Routing some gates from a first layout, with draws from `s`, meets no obstacle. -/
structure Feasible (d : Device) (start : Layout) (s : σ) (limit : Nat) (gs : List Gate) : Prop where
  narrow : ∀ g ∈ gs, ¬ g.IsTooWide
  linked : ∀ g ∈ gs, ∀ p q, start.ends g = some (p, q) → d.Linked p q
  covered : (Course.after d ⟨start, s, 0⟩ gs).swaps ≤ limit

/-- A gate that routing from the layout `start` cannot take where it stands, and the error that it stops with. -/
inductive Stops (d : Device) (start : Layout) (limit : Nat) (k : Course σ) (g : Gate) : Error → Prop
  | tooWide : g.IsTooWide → Stops d start limit k g (.unsupported (.routing g.op g.qubits.length))
  /-- The qubits were apart at first, and the error tells where they are now. -/
  | apart {p q p' q' : Nat} : start.ends g = some (p, q) → ¬ d.Linked p q → k.layout.ends g = some (p', q') →
      Stops d start limit k g (.noPath p' q')
  /-- The budget does not cover the SWAPs for this gate on top of those before. -/
  | overBudget : limit < k.swaps + d.swapsFor k.layout g →
      Stops d start limit k g (.swapBudget limit (limit + 1) g.text)

/-! ## Gates one after the other -/

namespace Course

variable {k : Course σ} {g : Gate}

theorem swaps_le_next (d : Device) (k : Course σ) (g : Gate) : k.swaps ≤ (k.next d g).swaps := by
  unfold next
  split
  · exact Nat.le_refl _
  · split
    · exact Nat.le_refl _
    · split
      · exact Nat.le_refl _
      · exact Nat.le_add_right ..

/-- A gate on linked qubits takes as many SWAPs on couplings as it needs. -/
theorem exists_next (hk : k.layout.OnDevice d) (hl : ∀ p q, k.layout.ends g = some (p, q) → d.Linked p q) :
    ∃ (xs : List Exchange) (s : σ), (∀ x ∈ xs, d.adjacent x.a x.b = true) ∧ xs.length = d.swapsFor k.layout g ∧
      k.next d g = ⟨k.layout.after xs, s, k.swaps + xs.length⟩ := by
  match he : k.layout.ends g with
  | none =>
    exact ⟨[], k.source, List.forall_mem_nil _, (Device.swapsFor_of_ends_eq_none he).symm, next_of_ends_eq_none he⟩
  | some (p, q) =>
    by_cases hadj : d.adjacent p q = true
    · exact ⟨[], k.source, List.forall_mem_nil _, (Device.swapsFor_of_adjacent he hadj).symm, next_of_adjacent he hadj⟩
    · obtain ⟨xs, s, hd⟩ := exists_detour hk he (by simpa using hadj) (hl p q he) k.source
      exact ⟨xs, s, hd.coupled, hd.length, next_of_isDetour hd⟩

end Course

/-- Routing follows its course, and no qubit has left its component. -/
structure Keeps (d : Device) (n limit : Nat) (start : Layout) (st : Transit × σ) (k : Course σ) : Prop where
  size : start.size = n
  follows : Follows d n limit st k
  drifts : start.Drifts d k.layout

variable {st : Transit × σ} {k : Course σ} {g : Gate} {gs : List Gate} {s : σ} {e : Error}

omit [Source σ] in
theorem Keeps.onDevice (h : Keeps d n limit start st k) : k.layout.OnDevice d :=
  h.follows.layout ▸ h.follows.sound.onDevice

omit [Source σ] in
/-- What is linked at first is linked now. -/
theorem Keeps.linked (h : Keeps d n limit start st k) (hg : ∀ q ∈ g.qubits, q < n)
    (hl : ∀ p q, start.ends g = some (p, q) → d.Linked p q) (p q : Nat) (he : k.layout.ends g = some (p, q)) :
    d.Linked p q := by
  obtain ⟨p', q', he'⟩ := Layout.exists_ends (l := start) (Layout.ends_eq_some.mp he).1 (by rwa [h.size])
  exact (h.drifts.linked_iff he' he).mpr (hl p' q' he')

theorem Keeps.step (h : Keeps d n limit start st k) (hg : ∀ q ∈ g.qubits, q < n) (hw : ¬ g.IsTooWide)
    (hl : ∀ p q, start.ends g = some (p, q) → d.Linked p q) (hb : k.swaps + d.swapsFor k.layout g ≤ limit) :
    ∃ st', step d st g = .ok st' ∧ Keeps d n limit start st' (k.next d g) := by
  have hl' := h.linked hg hl
  obtain ⟨st', hst, hf⟩ := step_follows h.follows hg hw hl' hb
  obtain ⟨xs, s, hx, -, hk⟩ := Course.exists_next h.onDevice hl'
  exact ⟨st', hst, h.size, hf, hk ▸ h.drifts.exchanged hx⟩

/-- A gate that routing cannot take stops it. -/
theorem Keeps.stop (h : Keeps d n limit start st k) (hs : Stops d start limit k g e) :
    Routing.step d st g = .error e := by
  cases hs with
  | tooWide hw => exact step_of_isTooWide hw st
  | apart he hl he' => exact step_of_not_linked h.follows he' (mt (h.drifts.linked_iff he he').mp hl)
  | overBudget hb => exact step_of_lt h.follows hb

omit [Source σ] in
/-- A gate can be taken, or it stops routing. -/
theorem Keeps.step_or_stop (h : Keeps d n limit start st k) (hg : ∀ q ∈ g.qubits, q < n) :
    (¬ g.IsTooWide ∧ (∀ p q, start.ends g = some (p, q) → d.Linked p q) ∧
      k.swaps + d.swapsFor k.layout g ≤ limit) ∨ ∃ e, Stops d start limit k g e := by
  by_cases hw : g.IsTooWide
  · exact .inr ⟨_, .tooWide hw⟩
  by_cases hl : ∀ p q, start.ends g = some (p, q) → d.Linked p q
  · rcases Nat.lt_or_ge limit (k.swaps + d.swapsFor k.layout g) with hb | hb
    · exact .inr ⟨_, .overBudget hb⟩
    · exact .inl ⟨hw, hl, hb⟩
  · push Not at hl
    obtain ⟨p, q, he, hl⟩ := hl
    have hi := (Layout.ends_eq_some.mp he).1
    obtain ⟨p', q', he'⟩ := Layout.exists_ends (l := k.layout) hi (by rwa [← h.follows.layout, h.follows.sound.size])
    exact .inr ⟨_, .apart he hl he'⟩

/-! ## All gates of a circuit -/

theorem feasible_nil (d : Device) (start : Layout) (s : σ) (limit : Nat) : Feasible d start s limit [] where
  narrow := List.forall_mem_nil _
  linked := List.forall_mem_nil _
  covered := Nat.zero_le _

theorem Feasible.of_concat (h : Feasible d start s limit (gs ++ [g])) : Feasible d start s limit gs where
  narrow g' hg := h.narrow g' (List.mem_append_left _ hg)
  linked g' hg := h.linked g' (List.mem_append_left _ hg)
  covered := by
    have hc := h.covered
    rw [Course.after_concat] at hc
    exact (Course.swaps_le_next d _ g).trans hc

theorem Feasible.concat (h : Feasible d start s limit gs) (hw : ¬ g.IsTooWide)
    (hl : ∀ p q, start.ends g = some (p, q) → d.Linked p q)
    (hb : ((Course.after d ⟨start, s, 0⟩ gs).next d g).swaps ≤ limit) : Feasible d start s limit (gs ++ [g]) where
  narrow g' hg := by
    rcases List.mem_append.mp hg with hg | hg
    · exact h.narrow g' hg
    · rwa [List.mem_singleton.mp hg]
  linked g' hg := by
    rcases List.mem_append.mp hg with hg | hg
    · exact h.linked g' hg
    · rwa [List.mem_singleton.mp hg]
  covered := by rwa [Course.after_concat]

/-- Without an obstacle routing takes all gates. -/
theorem foldlM_of_feasible (h₀ : Keeps d n limit start st ⟨start, s, 0⟩) (hg : ∀ g ∈ gs, ∀ q ∈ g.qubits, q < n)
    (hf : Feasible d start s limit gs) :
    ∃ st', gs.foldlM (step d) st = .ok st' ∧ Keeps d n limit start st' (Course.after d ⟨start, s, 0⟩ gs) := by
  induction gs using List.reverseRecOn with
  | nil => exact ⟨st, rfl, h₀⟩
  | append_singleton gs g ih =>
    obtain ⟨st₁, hst₁, hk⟩ := ih (fun g' hg' => hg g' (List.mem_append_left _ hg')) hf.of_concat
    have hm : g ∈ gs ++ [g] := List.mem_append_right _ (List.mem_singleton_self g)
    have hl := hf.linked g hm
    obtain ⟨xs, s', -, hlen, hnext⟩ := Course.exists_next hk.onDevice (hk.linked (hg g hm) hl)
    have hb := hf.covered
    rw [Course.after_concat, hnext, hlen] at hb
    obtain ⟨st', hst, hk'⟩ := hk.step (hg g hm) (hf.narrow g hm) hl hb
    rw [Course.after_concat, List.foldlM_append]
    exact ⟨st', bind_eq_ok.mpr ⟨st₁, hst₁, bind_eq_ok.mpr ⟨st', hst, rfl⟩⟩, hk'⟩

/-- Routing meets no obstacle, or there is a first one. -/
theorem feasible_or_stops (h₀ : Keeps d n limit start st ⟨start, s, 0⟩) (hg : ∀ g ∈ gs, ∀ q ∈ g.qubits, q < n) :
    Feasible d start s limit gs ∨ ∃ ys g zs e, gs = ys ++ g :: zs ∧ Feasible d start s limit ys ∧
      Stops d start limit (Course.after d ⟨start, s, 0⟩ ys) g e := by
  induction gs using List.reverseRecOn with
  | nil => exact .inl (feasible_nil d start s limit)
  | append_singleton gs g ih =>
    have hgs := fun g' hg' => hg g' (List.mem_append_left [g] hg')
    rcases ih hgs with hf | ⟨ys, g', zs, e, rfl, hys, hs⟩
    · have hm : g ∈ gs ++ [g] := List.mem_append_right _ (List.mem_singleton_self g)
      obtain ⟨st', -, hk⟩ := foldlM_of_feasible h₀ hgs hf
      rcases hk.step_or_stop (hg g hm) with ⟨hw, hl, hb⟩ | ⟨e, hs⟩
      · obtain ⟨xs, s', -, hlen, hnext⟩ := Course.exists_next hk.onDevice (hk.linked (hg g hm) hl)
        exact .inl (hf.concat hw hl (by rw [hnext, hlen]; exact hb))
      · exact .inr ⟨gs, g, [], e, rfl, hf, hs⟩
    · exact .inr ⟨ys, g', zs ++ [g], e, by simp, hys, hs⟩

/-- At its first obstacle routing stops. -/
theorem foldlM_of_stops {hs : List Gate} (h₀ : Keeps d n limit start st ⟨start, s, 0⟩)
    (hg : ∀ g' ∈ gs, ∀ q ∈ g'.qubits, q < n) (hf : Feasible d start s limit gs)
    (he : Stops d start limit (Course.after d ⟨start, s, 0⟩ gs) g e) :
    (gs ++ g :: hs).foldlM (step d) st = .error e := by
  obtain ⟨st', hst, hk⟩ := foldlM_of_feasible h₀ hg hf
  exact foldlM_eq_error_iff.mpr ⟨gs, g, hs, st', rfl, hst, hk.stop he⟩

theorem exists_foldlM_iff (h₀ : Keeps d n limit start st ⟨start, s, 0⟩) (hg : ∀ g ∈ gs, ∀ q ∈ g.qubits, q < n) :
    (∃ st', gs.foldlM (step d) st = .ok st') ↔ Feasible d start s limit gs := by
  constructor
  · rintro ⟨st', hst⟩
    rcases feasible_or_stops h₀ hg with hf | ⟨ys, g, zs, e, rfl, hf, he⟩
    · exact hf
    · rw [foldlM_of_stops h₀ (fun g' hg' => hg g' (List.mem_append_left _ hg')) hf he] at hst
      cases hst
  · intro hf
    obtain ⟨st', hst, -⟩ := foldlM_of_feasible h₀ hg hf
    exact ⟨st', hst⟩

theorem foldlM_stops_iff (h₀ : Keeps d n limit start st ⟨start, s, 0⟩) (hg : ∀ g ∈ gs, ∀ q ∈ g.qubits, q < n) :
    gs.foldlM (step d) st = .error e ↔ ∃ ys g zs, gs = ys ++ g :: zs ∧ Feasible d start s limit ys ∧
      Stops d start limit (Course.after d ⟨start, s, 0⟩ ys) g e := by
  constructor
  · intro herr
    rcases feasible_or_stops h₀ hg with hf | ⟨ys, g, zs, e', rfl, hf, he⟩
    · obtain ⟨st', hst, -⟩ := foldlM_of_feasible h₀ hg hf
      rw [hst] at herr
      cases herr
    · rw [foldlM_of_stops h₀ (fun g' hg' => hg g' (List.mem_append_left _ hg')) hf he] at herr
      cases herr
      exact ⟨ys, g, zs, rfl, hf, he⟩
  · rintro ⟨ys, g, zs, rfl, hf, he⟩
    exact foldlM_of_stops h₀ (fun g' hg' => hg g' (List.mem_append_left _ hg')) hf he

/-! ## Before the first gate -/

variable {c : Circuit} {initial : Option Layout}

theorem nodes_ne_nil (hw : c.width ≤ d.nodes.length) : d.nodes ≠ [] := by
  intro h
  have := c.width_pos
  rw [h, List.length_nil] at hw
  omega

theorem checkInputs_of_fits (hw : c.width ≤ d.nodes.length)
    (hi : ∀ l, initial = some l → l.size = c.width ∧ l.OnDevice d) : checkInputs c d initial = .ok () := by
  have hne : d.isEmpty = false := by simpa [Device.isEmpty] using nodes_ne_nil hw
  unfold checkInputs
  rw [hne]
  rw [if_neg (by simp), if_neg (by omega)]
  cases initial with
  | none => rfl
  | some l =>
    obtain ⟨hs, hl⟩ := hi l rfl
    simp only
    rw [if_neg (by omega)]
    exact Layout.checkOn_of_onDevice hl

theorem exists_isStart (d : Device) (initial : Option Layout) (hw : c.width ≤ d.nodes.length) :
    ∃ start, IsStart c d initial start ∧ (initial = none → Layout.lowest c.width d = .ok start) := by
  cases initial with
  | some l =>
    refine ⟨l, rfl, ?_⟩
    intro h
    cases h
  | none =>
    have hs : Layout.lowest c.width d = .ok _ := if_neg (by omega)
    exact ⟨_, (Layout.lowest_eq_ok hs).2, fun _ => hs⟩

/-- With inputs that fit, routing takes the gates one after the other from a state that follows its course. -/
theorem exists_keeps (hd : d.InWords) (hw : c.width ≤ d.nodes.length)
    (hi : ∀ l, initial = some l → l.size = c.width ∧ l.OnDevice d) {x : Binary64}
    (hb : Budget.ofFactor x c.size = .ok ⟨limit, 0⟩) (s : σ) : ∃ start out, IsStart c d initial start ∧
      Keeps d c.width limit start (⟨start, ⟨limit, 0⟩, out⟩, s) ⟨start, s, 0⟩ ∧
      routeWith x s c d initial = c.gates.foldlM (step d) (⟨start, ⟨limit, 0⟩, out⟩, s) >>= fun st =>
        .ok ⟨st.1.out, start, st.1.layout, st.1.budget.used, c.depth, st.1.out.depth⟩ := by
  have hc := checkInputs_of_fits hw hi
  obtain ⟨start, hstart, hlowest⟩ := exists_isStart d initial hw
  obtain ⟨hsize, hon⟩ := hstart.fits hc
  obtain ⟨last, hlast⟩ := Device.exists_maxNode (nodes_ne_nil hw)
  have hreg := Routed.registerSize_of_maxNode hd hon hw hlast
  obtain ⟨out, hout⟩ := Circuit.exists_empty (Nat.succ_pos last)
  have hs : Transit.Sound d c.width ⟨start, ⟨limit, 0⟩, out⟩ := Transit.sound_start hsize hon rfl hlast hout
  refine ⟨start, out, hstart, ⟨hsize, ⟨hs, rfl, rfl, rfl, rfl⟩, .refl d start⟩, ?_⟩
  unfold routeWith
  rw [hc, hb]
  cases initial with
  | some l =>
    obtain rfl : start = l := hstart
    simp only [bind, Except.bind, pure, Except.pure, hreg, hout]
  | none =>
    simp only [bind, Except.bind, pure, Except.pure, hlowest rfl, hreg, hout]

/-! ## Whole circuits -/

/-- Routing on inputs that fit succeeds exactly when it meets no obstacle, and otherwise stops at the first one, with
    the error of that one: no other error is possible. It then has inserted the SWAPs that its course needs. -/
theorem route_stops_at_first_obstacle {o : Options} {c : Circuit} {d : Device} {initial : Option Layout}
    (hd : d.InWords) (hw : c.width ≤ d.nodes.length) (hi : ∀ l, initial = some l → l.size = c.width ∧ l.OnDevice d)
    (hf : o.swapFactor.isAmount = true) :
    ∃ start limit, IsStart c d initial start ∧ Budget.ofFactor o.swapFactor c.size = .ok ⟨limit, 0⟩ ∧
      ((∃ r, route o c d initial = .ok r) ↔ Feasible d start (Twister.ofSeed o.seed) limit c.gates) ∧
      (∀ e, route o c d initial = .error e ↔
        ∃ gs g hs, c.gates = gs ++ g :: hs ∧ Feasible d start (Twister.ofSeed o.seed) limit gs ∧
          Stops d start limit (Course.after d ⟨start, Twister.ofSeed o.seed, 0⟩ gs) g e) ∧
      ∀ r, route o c d initial = .ok r →
        r.swaps = (Course.after d ⟨start, Twister.ofSeed o.seed, 0⟩ c.gates).swaps := by
  have hb : Budget.ofFactor o.swapFactor c.size = .ok _ := if_pos hf
  obtain ⟨start, out, hstart, hk, hroute⟩ := exists_keeps hd hw hi hb (Twister.ofSeed o.seed)
  have hg := c.forall_mem_gates
  refine ⟨start, _, hstart, hb, ?_, ?_, ?_⟩
  · rw [route, hroute, exists_bind_ok_iff, exists_foldlM_iff hk hg]
  · intro e
    rw [route, hroute, bind_ok_eq_error_iff, foldlM_stops_iff hk hg]
  · intro r hr
    rw [route, hroute] at hr
    obtain ⟨st, hst, he⟩ := bind_eq_ok.mp hr
    obtain ⟨st', hst', hk'⟩ := foldlM_of_feasible hk hg ((exists_foldlM_iff hk hg).mp ⟨st, hst⟩)
    rw [hst] at hst'
    cases hst'
    cases he
    exact hk'.follows.used

/-- A fifth of a SWAP per gate pays for one: the fourth gate, which needs a second, is refused. -/
theorem route_stops_at_first_obstacle_allMeet :
    fourInARow.InWords ∧ allMeet.width ≤ fourInARow.nodes.length ∧ (Binary64.ofFloat 0.2).isAmount = true ∧
    route { swapFactor := .ofFloat 0.2 } allMeet fourInARow none = .error (.swapBudget 1 2 "CNOT q[0], q[1]") ∧
    ∃ start, IsStart allMeet fourInARow none start ∧
      ¬ Feasible fourInARow start (Twister.ofSeed 0) 1 allMeet.gates ∧
      ∃ gs g hs, allMeet.gates = gs ++ g :: hs ∧ Feasible fourInARow start (Twister.ofSeed 0) 1 gs ∧
        Stops fourInARow start 1 (Course.after fourInARow ⟨start, Twister.ofSeed 0, 0⟩ gs) g
          (.swapBudget 1 2 "CNOT q[0], q[1]") := by
  have hd : fourInARow.InWords := by unfold Device.InWords; decide
  have hf : (Binary64.ofFloat 0.2).isAmount = true := by decide +kernel
  have he : route { swapFactor := .ofFloat 0.2 } allMeet fourInARow none =
      .error (.swapBudget 1 2 "CNOT q[0], q[1]") := by
    decide +kernel
  refine ⟨hd, by decide, hf, he, ?_⟩
  have hi : ∀ l, (none : Option Layout) = some l → l.size = allMeet.width ∧ l.OnDevice fourInARow := by
    intro l h
    cases h
  obtain ⟨start, limit, hstart, hb, hok, herr, -⟩ := route_stops_at_first_obstacle
    (o := { swapFactor := .ofFloat 0.2 }) (c := allMeet) hd (by decide) hi hf
  have hlimit : Budget.ofFactor (Binary64.ofFloat 0.2) allMeet.size = .ok ⟨1, 0⟩ := by decide +kernel
  rw [hlimit] at hb
  cases hb
  refine ⟨start, hstart, ?_, (herr _).mp he⟩
  intro h
  obtain ⟨r, hr⟩ := hok.mpr h
  rw [he] at hr
  cases hr

end Routing

end CircuitMapping
