/-
  CircuitMapping.Proofs.Routing.Cutoff — a budget only cuts routing off.

  The limit of a budget is read where a SWAP is counted and nowhere else, so under another limit the same is done until
  that limit is met. `CutOff` says this of one computation that counts SWAPs: it ends as it would without a limit when
  the limit covers the count, and otherwise the first SWAP beyond the limit is refused. Computations in a row are cut
  off like one (`CutOff.bind`), so it holds of SWAPs in a row, of a gate and of a circuit (`cutOff_swapAll`,
  `cutOff_step`, `cutOff_pinnedStep`, `cutOff_foldlM`).

  Before the first gate a factor only sets the budget (`cutAt_routeWith`, `cutAt_routePinnedWith`). So a circuit routed
  under one factor is routed alike under every factor that pays for the SWAPs, and under any other it is refused one
  SWAP beyond the budget (`budget_only_cuts_off`).
-/
import CircuitMapping.Proofs.Routing.Restored

namespace CircuitMapping

open Success

namespace Transit

/-- The same state under another limit. -/
def under (limit : Nat) (t : Transit) : Transit := { t with budget := ⟨limit, t.budget.used⟩ }

/-- Whether SWAPs took place, and the state after them if they did. -/
def settled : Transit × Option Error → Except Error Transit
  | (t, none) => .ok t
  | (_, some e) => .error e

theorem settled_eq_ok {r : Transit × Option Error} {t : Transit} : settled r = .ok t ↔ r = (t, none) := by
  obtain ⟨u, _ | e⟩ := r
  · simp [settled]
  · simp [settled]

theorem settled_swapAll_cons (t : Transit) (g : Gate) (a b : Nat) (rest : List (Nat × Nat)) :
    settled (t.swapAll g ((a, b) :: rest)) = settled (t.swap g a b) >>= fun u => settled (u.swapAll g rest) := by
  rw [swapAll]
  rcases t.swap g a b with ⟨u, _ | e⟩
  · rfl
  · rfl

end Transit

namespace Routing

open Transit

variable {α β σ : Type} [Source σ]

/-! ## Computations that count SWAPs -/

/-- A computation under `limit` that takes the count from `used` to `used'` and ends with `a`, unless a SWAP for one of
    `gs` is refused on the way. -/
structure CutOff (limit used used' : Nat) (gs : List Gate) (x : Except Error α) (a : α) : Prop where
  le : used ≤ used'
  covered : used' ≤ limit → x = .ok a
  refused : used ≤ limit → limit < used' → ∃ g ∈ gs, x = .error (.swapBudget limit (limit + 1) g.text)

variable {limit : Nat} {gs : List Gate}

theorem CutOff.of_eq {used : Nat} {x : Except Error α} {a : α} (h : x = .ok a) : CutOff limit used used gs x a where
  le := Nat.le_refl used
  covered := fun _ => h
  refused := fun hle hlt => absurd hlt (Nat.not_lt.mpr hle)

theorem CutOff.mono {used used' : Nat} {gs' : List Gate} {x : Except Error α} {a : α}
    (h : CutOff limit used used' gs x a) (hg : gs ⊆ gs') : CutOff limit used used' gs' x a where
  le := h.le
  covered := h.covered
  refused := by
    intro hle hlt
    obtain ⟨g, hm, hx⟩ := h.refused hle hlt
    exact ⟨g, hg hm, hx⟩

theorem CutOff.bind {u v w : Nat} {x : Except Error α} {a : α} {f : α → Except Error β} {b : β}
    (hx : CutOff limit u v gs x a) (hf : CutOff limit v w gs (f a) b) : CutOff limit u w gs (x >>= f) b where
  le := hx.le.trans hf.le
  covered := by
    intro hw
    exact bind_eq_ok.mpr ⟨a, hx.covered (hf.le.trans hw), hf.covered hw⟩
  refused := by
    intro hu hw
    by_cases hv : v ≤ limit
    · obtain ⟨g, hg, he⟩ := hf.refused hv hw
      exact ⟨g, hg, bind_eq_error.mpr (.inr ⟨a, hx.covered hv, he⟩)⟩
    · obtain ⟨g, hg, he⟩ := hx.refused hu (Nat.lt_of_not_le hv)
      exact ⟨g, hg, bind_eq_error.mpr (.inl he)⟩

/-- What goes before without counting does not matter. -/
theorem CutOff.after {u w : Nat} {x : Except Error α} {a : α} {f : α → Except Error β} {b : β} (hx : x = .ok a)
    (hf : CutOff limit u w gs (f a) b) : CutOff limit u w gs (x >>= f) b := .bind (.of_eq hx) hf

/-! ## One gate -/

variable {d : Device} {g : Gate} {t t' : Transit} {s s' : σ} {st st' : Transit × σ}

theorem cutOff_swap {a b : Nat} (h : settled (t.swap g a b) = .ok t') :
    CutOff limit t.budget.used t'.budget.used [g] (settled ((t.under limit).swap g a b)) (t'.under limit) := by
  rw [settled_eq_ok] at h
  rcases swap_cases t g a b with ⟨_, u, hu, hx⟩ | ⟨e, he⟩
  · rw [h] at hu
    obtain rfl : t' = u := (Prod.mk.inj hu).1
    have hused : t'.budget.used = t.budget.used + 1 := hx.used
    refine ⟨by omega, ?_, ?_⟩
    · intro hle
      -- the SWAP is put out as it was, and is within this limit too
      unfold swap at h ⊢
      dsimp only at h ⊢
      split at h
      · cases (Prod.mk.inj h).2
      split at h
      · cases (Prod.mk.inj h).2
      rename_i out hout
      obtain ⟨rfl, -⟩ := Prod.mk.inj h
      have hex : (t.under limit).budget.spend.isExceeded = false := decide_eq_false (Nat.not_lt.mpr hle)
      have hadd : (Gate.swap a b >>= (t.under limit).out.add) = .ok out := hout
      simp only [hex, Bool.false_eq_true, if_false, hadd]
      rfl
    · intro hle hlt
      have hfull : (t.under limit).budget.limit ≤ (t.under limit).budget.used := by
        simp only [under]
        omega
      have heq : t.budget.used = limit := by omega
      refine ⟨g, List.mem_singleton_self g, ?_⟩
      rw [swap_of_le g a b hfull]
      simp only [under, settled, heq]
  · rw [h] at he
    cases (Prod.mk.inj he).2

theorem cutOff_swapAll {swaps : List (Nat × Nat)} (h : settled (t.swapAll g swaps) = .ok t') :
    CutOff limit t.budget.used t'.budget.used [g] (settled ((t.under limit).swapAll g swaps)) (t'.under limit) := by
  induction swaps generalizing t with
  | nil =>
    cases h
    exact .of_eq rfl
  | cons x rest ih =>
    rw [settled_swapAll_cons] at h ⊢
    obtain ⟨u, hu, h⟩ := bind_eq_ok.mp h
    exact .bind (cutOff_swap hu) (ih h)

theorem approach_of_qubits {a b : Nat} (hq : g.qubits = [a, b]) (t : Transit) (s : σ) :
    approach d g t s = t.layout.physical a >>= fun p => t.layout.physical b >>= fun q =>
      if d.adjacent p q then .ok (t, [], s)
      else d.shortestPath p q s >>= fun r => settled (t.swapAll g (chain r.1)) >>= fun u =>
        .ok (u, chain r.1, r.2) := by
  unfold approach
  rw [hq]
  refine bind_congr fun p => bind_congr fun q => ?_
  split
  · rfl
  · refine bind_congr ?_
    rintro ⟨path, s⟩
    rcases hu : t.swapAll g (chain path) with ⟨u, _ | e⟩
    · simp only [walk, hu]
      rfl
    · simp only [walk, hu]
      rfl

theorem cutOff_approach {swaps : List (Nat × Nat)} (hi : g.IsInteraction)
    (h : approach d g t s = .ok (t', swaps, s')) :
    CutOff limit t.budget.used t'.budget.used [g] (approach d g (t.under limit) s) (t'.under limit, swaps, s') := by
  obtain ⟨a, b, -, hq⟩ := Gate.qubits_of_isInteraction hi
  rw [approach_of_qubits hq] at h ⊢
  obtain ⟨p, hp, h⟩ := bind_eq_ok.mp h
  obtain ⟨q, hq, h⟩ := bind_eq_ok.mp h
  refine .after hp (.after hq ?_)
  split at h
  · rename_i hadj
    cases h
    exact .of_eq (if_pos hadj)
  · rename_i hadj
    rw [if_neg hadj]
    obtain ⟨r, hr, h⟩ := bind_eq_ok.mp h
    obtain ⟨u, hu, h⟩ := bind_eq_ok.mp h
    cases h
    exact .after hr (.bind (cutOff_swapAll hu) (.of_eq rfl))

omit [Source σ] in
theorem cutOff_emit (h : t.emit g = .ok t') :
    CutOff limit t.budget.used t'.budget.used gs ((t.under limit).emit g) (t'.under limit) := by
  obtain ⟨p, hp, h⟩ := bind_eq_ok.mp h
  obtain ⟨out, hout, h⟩ := bind_eq_ok.mp h
  cases pure_eq_ok.mp h
  exact .of_eq (bind_eq_ok.mpr ⟨p, hp, bind_eq_ok.mpr ⟨out, hout, rfl⟩⟩)

theorem cutOff_step (h : step d st g = .ok st') :
    CutOff limit st.1.budget.used st'.1.budget.used [g] (step d (st.1.under limit, st.2) g)
      (st'.1.under limit, st'.2) := by
  have hw : ¬ g.IsTooWide := by
    intro hw
    rw [step_of_isTooWide hw] at h
    cases h
  by_cases hi : g.IsInteraction
  · rw [step_of_isInteraction hi] at h ⊢
    obtain ⟨⟨t, swaps, s⟩, happ, h⟩ := bind_eq_ok.mp h
    obtain ⟨t', he, h⟩ := bind_eq_ok.mp h
    cases pure_eq_ok.mp h
    exact .bind (cutOff_approach hi happ) (.bind (cutOff_emit he) (.of_eq rfl))
  · rw [step_of_not_isInteraction hw hi] at h ⊢
    obtain ⟨t', he, h⟩ := bind_eq_ok.mp h
    cases pure_eq_ok.mp h
    exact .bind (cutOff_emit he) (.of_eq rfl)

theorem pinnedStep_of_isInteraction (hi : g.IsInteraction) (st : Transit × σ) :
    pinnedStep d st g = approach d g st.1 st.2 >>= fun r => checkTogether d g r.1.layout >>= fun _ =>
      r.1.emit g >>= fun t => settled (t.swapAll g r.2.1.reverse) >>= fun t => .ok (t, r.2.2) := by
  obtain ⟨kind, hk⟩ := Gate.exists_kind (Gate.not_isTooWide_of_isInteraction hi)
  unfold pinnedStep
  rw [hk]
  refine (if_pos ((Gate.needsAdjacency_iff hk).mpr hi)).trans ?_
  refine bind_congr ?_
  rintro ⟨t, swaps, s⟩
  refine bind_congr fun _ => bind_congr fun u => ?_
  rcases u.swapAll g swaps.reverse with ⟨v, _ | e⟩
  · rfl
  · rfl

theorem cutOff_pinnedStep (h : pinnedStep d st g = .ok st') :
    CutOff limit st.1.budget.used st'.1.budget.used [g] (pinnedStep d (st.1.under limit, st.2) g)
      (st'.1.under limit, st'.2) := by
  have hw : ¬ g.IsTooWide := by
    intro hw
    rw [pinnedStep_of_isTooWide hw] at h
    cases h
  by_cases hi : g.IsInteraction
  · rw [pinnedStep_of_isInteraction hi] at h ⊢
    obtain ⟨⟨t, swaps, s⟩, happ, h⟩ := bind_eq_ok.mp h
    obtain ⟨_, htogether, h⟩ := bind_eq_ok.mp h
    obtain ⟨t₁, he, h⟩ := bind_eq_ok.mp h
    obtain ⟨t₂, hback, h⟩ := bind_eq_ok.mp h
    cases h
    exact .bind (cutOff_approach hi happ)
      (.after htogether (.bind (cutOff_emit he) (.bind (cutOff_swapAll hback) (.of_eq rfl))))
  · rw [pinnedStep_of_not_isInteraction hw hi] at h ⊢
    obtain ⟨t', he, h⟩ := bind_eq_ok.mp h
    cases pure_eq_ok.mp h
    exact .bind (cutOff_emit he) (.of_eq rfl)

/-! ## Whole circuits -/

omit [Source σ] in
/-- Steps that are each cut off are cut off together. -/
theorem cutOff_foldlM {f : Transit × σ → Gate → Except Error (Transit × σ)}
    (hf : ∀ {st g st'}, f st g = .ok st' →
      CutOff limit st.1.budget.used st'.1.budget.used [g] (f (st.1.under limit, st.2) g) (st'.1.under limit, st'.2))
    (h : gs.foldlM f st = .ok st') :
    CutOff limit st.1.budget.used st'.1.budget.used gs (gs.foldlM f (st.1.under limit, st.2))
      (st'.1.under limit, st'.2) := by
  induction gs generalizing st with
  | nil =>
    cases pure_eq_ok.mp h
    exact .of_eq rfl
  | cons g gs ih =>
    obtain ⟨u, hu, h⟩ := bind_eq_ok.mp h
    have hg : [g] ⊆ g :: gs := List.cons_subset_cons g (List.nil_subset gs)
    exact .bind ((hf hu).mono hg) ((ih h).mono (List.subset_cons_self g gs))

/-- The outcome `y` is the routed circuit of `x` if `limit` covers its SWAPs, and otherwise one of the gates is refused
    a SWAP beyond `limit`. Nothing is said where `x` is an error. -/
def CutAt (limit : Nat) (c : Circuit) (x y : Except Error Routed) : Prop :=
  ∀ r, x = .ok r → (r.swaps ≤ limit → y = .ok r) ∧
    (limit < r.swaps → ∃ g ∈ c.gates, y = .error (.swapBudget limit (limit + 1) g.text))

variable {x y : Binary64} {c : Circuit}

theorem CutAt.bind {v : Except Error α} {f f' : α → Except Error Routed} (h : ∀ a, CutAt limit c (f a) (f' a)) :
    CutAt limit c (v >>= f) (v >>= f') := by
  intro r hr
  obtain ⟨a, ha, hr⟩ := bind_eq_ok.mp hr
  rw [ha]
  exact h a r hr

theorem CutAt.budget {f : Budget → Except Error Routed} (hy : Budget.ofFactor y c.size = .ok ⟨limit, 0⟩)
    (h : ∀ budget : Budget, budget.used = 0 → CutAt limit c (f budget) (f ⟨limit, 0⟩)) :
    CutAt limit c (Budget.ofFactor x c.size >>= f) (Budget.ofFactor y c.size >>= f) := by
  intro r hr
  obtain ⟨budget, hb, hr⟩ := bind_eq_ok.mp hr
  rw [hy]
  exact h budget (used_of_ofFactor hb) r hr

omit [Source σ] in
/-- All gates of a circuit routed one after the other from a fresh budget. -/
theorem CutAt.foldlM {f : Transit × σ → Gate → Except Error (Transit × σ)}
    (hf : ∀ {st g st'}, f st g = .ok st' →
      CutOff limit st.1.budget.used st'.1.budget.used [g] (f (st.1.under limit, st.2) g) (st'.1.under limit, st'.2))
    {start : Layout} {budget : Budget} {out : Circuit} (hb : budget.used = 0) :
    CutAt limit c (c.gates.foldlM f (⟨start, budget, out⟩, s) >>= fun st => .ok (summary c start st.1))
      (c.gates.foldlM f (⟨start, ⟨limit, 0⟩, out⟩, s) >>= fun st => .ok (summary c start st.1)) := by
  intro r h
  obtain ⟨st, hst, h⟩ := bind_eq_ok.mp h
  cases h
  have hgates := cutOff_foldlM hf hst
  simp only [Transit.under, hb] at hgates
  have hall := hgates.bind (f := fun st => .ok (summary c start st.1)) (.of_eq rfl)
  exact ⟨hall.covered, hall.refused (Nat.zero_le limit)⟩

theorem cutAt_routeWith (x : Binary64) (s : σ) (d : Device) (initial : Option Layout)
    (hy : Budget.ofFactor y c.size = .ok ⟨limit, 0⟩) :
    CutAt limit c (routeWith x s c d initial) (routeWith y s c d initial) := by
  rw [routeWith_eq, routeWith_eq]
  refine .bind fun _ => .budget hy fun budget hb => ?_
  exact .bind fun start => .bind fun w => .bind fun out => .foldlM cutOff_step hb

theorem cutAt_routePinnedWith (x : Binary64) (s : σ) (request : Request) (d : Device)
    (hy : Budget.ofFactor y c.size = .ok ⟨limit, 0⟩) :
    CutAt limit c (routePinnedWith x s request c d) (routePinnedWith y s request c d) := by
  rw [routePinnedWith_eq, routePinnedWith_eq]
  refine .bind fun start => .budget hy fun budget hb => ?_
  exact .bind fun last => .bind fun out => .foldlM cutOff_pinnedStep hb

/-- Two factors that pay for `limit₁` and `limit₂` SWAPs: what routing returns under the first it returns under the
    second too if the second budget covers the SWAPs, and otherwise it is refused one SWAP beyond the second budget.
    This holds of both ways of routing, whatever the device, the layout or request, and the seed. -/
theorem budget_only_cuts_off (c : Circuit) (d : Device) (seed : UInt64) {x₁ x₂ : Binary64}
    (h₁ : x₁.isAmount = true) (h₂ : x₂.isAmount = true) :
    ∃ limit₁ limit₂,
      Budget.ofFactor x₁ c.size = .ok ⟨limit₁, 0⟩ ∧
      ((x₁.times c.size).magnitude.floor < Word.count → limit₁ = (x₁.times c.size).magnitude.floor) ∧
      Budget.ofFactor x₂ c.size = .ok ⟨limit₂, 0⟩ ∧
      ((x₂.times c.size).magnitude.floor < Word.count → limit₂ = (x₂.times c.size).magnitude.floor) ∧
      (∀ initial r, route ⟨seed, x₁⟩ c d initial = .ok r →
        (r.swaps ≤ limit₂ → route ⟨seed, x₂⟩ c d initial = .ok r) ∧
        (limit₂ < r.swaps → ∃ g ∈ c.gates,
          route ⟨seed, x₂⟩ c d initial = .error (.swapBudget limit₂ (limit₂ + 1) g.text))) ∧
      ∀ request r, routePinned ⟨seed, x₁⟩ request c d = .ok r →
        (r.swaps ≤ limit₂ → routePinned ⟨seed, x₂⟩ request c d = .ok r) ∧
        (limit₂ < r.swaps → ∃ g ∈ c.gates,
          routePinned ⟨seed, x₂⟩ request c d = .error (.swapBudget limit₂ (limit₂ + 1) g.text)) := by
  obtain ⟨limit₁, hb₁, hfloor₁⟩ := exists_budget (n := c.size) h₁
  obtain ⟨limit₂, hb₂, hfloor₂⟩ := exists_budget (n := c.size) h₂
  refine ⟨limit₁, limit₂, hb₁, hfloor₁, hb₂, hfloor₂, ?_, ?_⟩
  · intro initial
    exact cutAt_routeWith x₁ _ d initial hb₂
  · intro request
    exact cutAt_routePinnedWith x₁ _ request d hb₂

/-- Three SWAPs pay for the two of one way of routing, and not for the four of the other. -/
theorem budget_only_cuts_off_allMeet :
    (Binary64.ofFloat 64).isAmount = true ∧ (Binary64.ofFloat 0.7).isAmount = true ∧
    (∃ r, route ⟨0, .ofFloat 64⟩ allMeet fourInARow none = .ok r ∧ r.swaps = 2 ∧
      route ⟨0, .ofFloat 0.7⟩ allMeet fourInARow none = .ok r) ∧
    ∃ r, routePinned ⟨0, .ofFloat 64⟩ (.ofEntries [(2, 4), (0, 1), (1, 2)]) allMeet fourInARow = .ok r ∧ r.swaps = 4 ∧
      ∃ g ∈ allMeet.gates, routePinned ⟨0, .ofFloat 0.7⟩ (.ofEntries [(2, 4), (0, 1), (1, 2)]) allMeet fourInARow =
        .error (.swapBudget 3 4 g.text) := by
  have h₁ : (Binary64.ofFloat 64).isAmount = true := by decide +kernel
  have h₂ : (Binary64.ofFloat 0.7).isAmount = true := by decide +kernel
  obtain ⟨limit₁, limit₂, -, -, hb, -, hroute, hpinned⟩ := budget_only_cuts_off allMeet fourInARow 0 h₁ h₂
  have hlimit : Budget.ofFactor (.ofFloat 0.7) allMeet.size = .ok ⟨3, 0⟩ := by decide +kernel
  rw [hlimit] at hb
  cases hb
  obtain ⟨r, hr, hs⟩ := exists_ok_of_map (x := route ⟨0, .ofFloat 64⟩ allMeet fourInARow none) (f := (·.swaps)) (b := 2)
    (by decide +kernel)
  obtain ⟨r', hr', hs'⟩ := exists_ok_of_map
    (x := routePinned ⟨0, .ofFloat 64⟩ (.ofEntries [(2, 4), (0, 1), (1, 2)]) allMeet fourInARow) (f := (·.swaps))
    (b := 4) (by decide +kernel)
  exact ⟨h₁, h₂, ⟨r, hr, hs, (hroute none r hr).1 (by omega)⟩, r', hr', hs', (hpinned _ r' hr').2 (by omega)⟩

end Routing

end CircuitMapping
