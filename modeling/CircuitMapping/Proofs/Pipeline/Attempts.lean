/-
  CircuitMapping.Proofs.Pipeline.Attempts — which of several attempts at routing is kept.

  Attempts are made up to the first that inserts no SWAPs or fails for another reason than its budget (`Ends`). What
  they have led to is known at every point (`Stands`): nothing before the first, the last refusal as long as all were
  refused, and otherwise the earliest outcome with the fewest SWAPs. One more outcome or refusal keeps this
  (`Stands.offer`, `Stands.refuse`), so it holds of what is left at the end (`exists_made`).

  So the outcome of routing is that of one of the attempts made, and it is known which (`route_is_best_attempt`).
-/
import CircuitMapping.Pipeline.Basic
import CircuitMapping.Proofs.Success

namespace CircuitMapping

open Success

/-- The budget did not cover the SWAPs: the one error that is given another attempt. -/
def Error.IsRefusal (e : Error) : Prop := ∃ limit needed gate, e = .swapBudget limit needed gate

namespace Pipeline

/-- The outcome of attempt `i`. -/
def outcome (p : Pipeline) (c : Circuit) (i : Nat) : Except Error RouteOutcome :=
  p.attempt c (p.options.router.seed + UInt64.ofNat i)

/-- No attempt follows one with this outcome. -/
def Ends (x : Except Error RouteOutcome) : Prop :=
  (∃ o, x = .ok o ∧ o.routed.swaps = 0) ∨ ∃ e, x = .error e ∧ ¬ e.IsRefusal

theorem ends_ok_iff {o : RouteOutcome} : Ends (.ok o) ↔ o.routed.swaps = 0 := by
  constructor
  · rintro (⟨o', ho, hzero⟩ | ⟨e, he, -⟩)
    · cases ho
      exact hzero
    · cases he
  · exact fun hzero => .inl ⟨o, rfl, hzero⟩

theorem ends_error_iff {e : Error} : Ends (.error e) ↔ ¬ e.IsRefusal := by
  constructor
  · rintro (⟨o, ho, -⟩ | ⟨e', he, hnot⟩)
    · cases ho
    · cases he
      exact hnot
  · exact fun hnot => .inr ⟨e, rfl, hnot⟩

/-- The attempts made are the first `m`: up to the first that ends them, or all. -/
structure Made (p : Pipeline) (c : Circuit) (m : Nat) : Prop where
  pos : 0 < m
  le : m ≤ p.options.attempts
  going : ∀ i, i + 1 < m → ¬ Ends (p.outcome c i)
  ended : m < p.options.attempts → Ends (p.outcome c (m - 1))

/-- Only the last attempt that is made can end them. -/
theorem Made.eq_last {p : Pipeline} {c : Circuit} {m i : Nat} (h : p.Made c m) (hi : i < m)
    (he : Ends (p.outcome c i)) : i + 1 = m := by
  rcases Nat.lt_or_eq_of_le (Nat.succ_le_of_lt hi) with hlt | heq
  · exact absurd he (h.going i hlt)
  · exact heq

theorem Made.unique {p : Pipeline} {c : Circuit} {m m' : Nat} (h : p.Made c m) (h' : p.Made c m') : m = m' := by
  have notLt : ∀ {a b : Nat}, p.Made c a → p.Made c b → ¬ a < b := by
    intro a b ha hb hlt
    have hpos := ha.pos
    have := hb.eq_last (i := a - 1) (by omega) (ha.ended (Nat.lt_of_lt_of_le hlt hb.le))
    omega
  have := notLt h h'
  have := notLt h' h
  omega

/-! ## What some attempts have led to -/

/-- Attempt `k` is the earliest of the first `j` with the fewest SWAPs, and `o` its outcome. -/
structure Best (f : Nat → Except Error RouteOutcome) (j k : Nat) (o : RouteOutcome) : Prop where
  lt : k < j
  outcome : f k = .ok o
  fewest : ∀ i < j, ∀ o', f i = .ok o' → o.routed.swaps ≤ o'.routed.swaps
  earliest : ∀ i < k, ∀ o', f i = .ok o' → o.routed.swaps < o'.routed.swaps

/-- What the first attempts with the outcomes `f` have led to. -/
inductive Stands (f : Nat → Except Error RouteOutcome) : Nat → Standing → Prop
  | none : Stands f 0 .none
  | refused {j : Nat} {e : Error} : (∀ i ≤ j, ∃ e, f i = .error e) → f j = .error e → Stands f (j + 1) (.refused e)
  | best {j k : Nat} {o : RouteOutcome} : Best f j k o → Stands f j (.best o)

variable {f : Nat → Except Error RouteOutcome} {j k : Nat} {st : Standing} {o : RouteOutcome} {e : Error}

/-- The first outcome is the best so far. -/
theorem best_of_errors (h : ∀ i < j, ∃ e, f i = .error e) (hj : f j = .ok o) : Best f (j + 1) j o := by
  have onlyLast : ∀ i < j, ∀ o', f i ≠ .ok o' := by
    intro i hi o' ho
    obtain ⟨e, he⟩ := h i hi
    rw [he] at ho
    cases ho
  refine ⟨Nat.lt_succ_self j, hj, ?_, fun i hi o' ho => absurd ho (onlyLast i hi o')⟩
  intro i hi o' ho
  rcases Nat.lt_succ_iff_lt_or_eq.mp hi with hi | rfl
  · exact absurd ho (onlyLast i hi o')
  · rw [hj] at ho
    cases ho
    exact Nat.le_refl _

theorem Best.keep (h : Best f j k o) (hj : ∀ o', f j = .ok o' → o.routed.swaps ≤ o'.routed.swaps) :
    Best f (j + 1) k o := by
  refine ⟨Nat.lt_succ_of_lt h.lt, h.outcome, ?_, h.earliest⟩
  intro i hi o' ho
  rcases Nat.lt_succ_iff_lt_or_eq.mp hi with hi | rfl
  · exact h.fewest i hi o' ho
  · exact hj o' ho

theorem Best.replace {o' : RouteOutcome} (h : Best f j k o) (hj : f j = .ok o')
    (hlt : o'.routed.swaps < o.routed.swaps) : Best f (j + 1) j o' := by
  have fewer : ∀ i < j, ∀ u, f i = .ok u → o'.routed.swaps < u.routed.swaps := fun i hi u hu =>
    Nat.lt_of_lt_of_le hlt (h.fewest i hi u hu)
  refine ⟨Nat.lt_succ_self j, hj, ?_, fewer⟩
  intro i hi u hu
  rcases Nat.lt_succ_iff_lt_or_eq.mp hi with hi | rfl
  · exact Nat.le_of_lt (fewer i hi u hu)
  · rw [hj] at hu
    cases hu
    exact Nat.le_refl _

theorem Stands.offer (h : Stands f j st) (hj : f j = .ok o) : Stands f (j + 1) (st.offer o) := by
  cases h with
  | none => exact .best (best_of_errors (fun i hi => absurd hi (Nat.not_lt_zero i)) hj)
  | refused hall _ => exact .best (best_of_errors (fun i hi => hall i (Nat.le_of_lt_succ hi)) hj)
  | best hb =>
    unfold Standing.offer
    simp only
    split
    · rename_i hlt
      exact .best (hb.replace hj hlt)
    · rename_i hle
      refine .best (hb.keep ?_)
      intro o' ho
      rw [hj] at ho
      cases ho
      exact Nat.le_of_not_lt hle

theorem Stands.refuse (h : Stands f j st) (hj : f j = .error e) : Stands f (j + 1) (st.refuse e) := by
  cases h with
  | none =>
    refine .refused ?_ hj
    intro i hi
    exact ⟨e, Nat.le_zero.mp hi ▸ hj⟩
  | refused hall _ =>
    refine .refused ?_ hj
    intro i hi
    rcases Nat.lt_or_eq_of_le hi with hi | rfl
    · exact hall i (Nat.le_of_lt_succ hi)
    · exact ⟨e, hj⟩
  | best hb =>
    refine .best (hb.keep ?_)
    intro o' ho
    rw [hj] at ho
    cases ho

theorem Stands.ne_none (h : Stands f j st) (hj : 0 < j) : st ≠ .none := by
  rintro rfl
  cases h
  exact absurd hj (Nat.lt_irrefl 0)

/-- One outcome among the attempts is enough for a best one. -/
theorem Stands.exists_best (h : Stands f j st) (hok : ∃ i < j, ∃ o, f i = .ok o) :
    ∃ k o, Best f j k o ∧ st = .best o := by
  obtain ⟨i, hi, o, ho⟩ := hok
  cases h with
  | none => exact absurd hi (Nat.not_lt_zero i)
  | refused hall _ =>
    obtain ⟨e, he⟩ := hall i (Nat.le_of_lt_succ hi)
    rw [ho] at he
    cases he
  | best hb => exact ⟨_, _, hb, rfl⟩

/-- Without any outcome the last refusal is what is left. -/
theorem Stands.exists_refused (h : Stands f j st) (hj : 0 < j) (hall : ∀ i < j, ∃ e, f i = .error e) :
    ∃ e, st = .refused e ∧ f (j - 1) = .error e := by
  cases h with
  | none => exact absurd hj (Nat.lt_irrefl 0)
  | refused _ hlast => exact ⟨_, rfl, hlast⟩
  | best hb =>
    obtain ⟨e, he⟩ := hall _ hb.lt
    rw [hb.outcome] at he
    cases he

/-! ## One attempt after the other -/

variable {p : Pipeline} {c : Circuit} {n : Nat} {seed : UInt64}

theorem attempts_of_ok (h : p.attempt c seed = .ok o) : p.attempts c (n + 1) seed st =
    if o.routed.swaps = 0 then .ok (st.offer o) else p.attempts c n (seed + 1) (st.offer o) := by
  rw [attempts, h]

theorem attempts_of_isRefusal (h : p.attempt c seed = .error e) (he : e.IsRefusal) :
    p.attempts c (n + 1) seed st = p.attempts c n (seed + 1) (st.refuse e) := by
  obtain ⟨limit, needed, gate, rfl⟩ := he
  rw [attempts, h]

theorem attempts_of_not_isRefusal (h : p.attempt c seed = .error e) (he : ¬ e.IsRefusal) :
    p.attempts c (n + 1) seed st = .error e := by
  rw [attempts, h]
  cases e with
  | swapBudget limit needed gate => exact absurd ⟨limit, needed, gate, rfl⟩ he
  | _ => rfl

theorem isRefusal_of_not_ends {x : Except Error RouteOutcome} (h : ¬ Ends x) (he : x = .error e) : e.IsRefusal :=
  Classical.byContradiction fun hr => h (he ▸ ends_error_iff.mpr hr)

/-- What is left of the first `m` attempts: the error that ended them, or where they stand. -/
inductive Leaves (f : Nat → Except Error RouteOutcome) : Nat → Except Error Standing → Prop
  | stopped {m : Nat} {e : Error} : f m = .error e → ¬ e.IsRefusal → Leaves f (m + 1) (.error e)
  | standing {m : Nat} {st : Standing} : Stands f m st → (∀ i < m, ∀ e, f i = .error e → e.IsRefusal) →
      Leaves f m (.ok st)

/-- Further attempts are made until one ends them or their number is reached. -/
theorem exists_leaves (n : Nat) (hst : Stands (p.outcome c) j st) (hj : ∀ i < j, ¬ Ends (p.outcome c i)) :
    ∃ m ≤ j + n, (m = j + n ∨ 0 < m ∧ Ends (p.outcome c (m - 1))) ∧ (∀ i, i + 1 < m → ¬ Ends (p.outcome c i)) ∧
      Leaves (p.outcome c) m (p.attempts c n (p.options.router.seed + UInt64.ofNat j) st) := by
  induction n generalizing j st with
  | zero =>
    refine ⟨j, Nat.le_refl j, .inl rfl, fun i hi => hj i (by omega), .standing hst ?_⟩
    intro i hi e he
    exact isRefusal_of_not_ends (hj i hi) he
  | succ n ih =>
    have hseed : p.options.router.seed + UInt64.ofNat j + 1 = p.options.router.seed + UInt64.ofNat (j + 1) := by
      rw [UInt64.ofNat_add, UInt64.add_assoc]
      rfl
    have hgoing : ∀ i, i + 1 < j + 1 → ¬ Ends (p.outcome c i) := fun i hi => hj i (by omega)
    -- an attempt that does not end them is followed by the others
    have followed : ∀ {st'}, Stands (p.outcome c) (j + 1) st' → ¬ Ends (p.outcome c j) →
        ∃ m ≤ j + (n + 1), (m = j + (n + 1) ∨ 0 < m ∧ Ends (p.outcome c (m - 1))) ∧
          (∀ i, i + 1 < m → ¬ Ends (p.outcome c i)) ∧
          Leaves (p.outcome c) m (p.attempts c n (p.options.router.seed + UInt64.ofNat j + 1) st') := by
      intro st' hst' hnot
      rw [hseed, show j + (n + 1) = j + 1 + n by omega]
      refine ih hst' fun i hi => ?_
      rcases Nat.lt_succ_iff_lt_or_eq.mp hi with hi | rfl
      · exact hj i hi
      · exact hnot
    match hx : p.outcome c j with
    | .ok o =>
      rw [attempts_of_ok hx]
      split
      · rename_i hzero
        have hends : Ends (p.outcome c j) := hx ▸ ends_ok_iff.mpr hzero
        refine ⟨j + 1, by omega, .inr ⟨Nat.succ_pos j, hends⟩, hgoing, .standing (hst.offer hx) ?_⟩
        intro i hi e he
        rcases Nat.lt_succ_iff_lt_or_eq.mp hi with hi | rfl
        · exact isRefusal_of_not_ends (hj i hi) he
        · rw [hx] at he
          cases he
      · rename_i hpos
        refine followed (hst.offer hx) ?_
        rwa [hx, ends_ok_iff]
    | .error e =>
      by_cases he : e.IsRefusal
      · rw [attempts_of_isRefusal hx he]
        refine followed (hst.refuse hx) ?_
        rw [hx, ends_error_iff]
        exact not_not_intro he
      · rw [attempts_of_not_isRefusal hx he]
        have hends : Ends (p.outcome c j) := hx ▸ ends_error_iff.mpr he
        exact ⟨j + 1, by omega, .inr ⟨Nat.succ_pos j, hends⟩, hgoing, .stopped hx he⟩

theorem exists_made (p : Pipeline) (c : Circuit) : ∃ m, p.Made c m ∧
    Leaves (p.outcome c) m (p.attempts c p.options.attempts p.options.router.seed .none) := by
  obtain ⟨m, hle, hend, hgoing, hleaves⟩ := exists_leaves (p := p) (c := c) p.options.attempts .none
    (fun i hi => absurd hi (Nat.not_lt_zero i))
  rw [Nat.zero_add] at hle hend
  have hpos := p.attempts_pos
  refine ⟨m, ⟨by omega, hle, hgoing, ?_⟩, ?_⟩
  · intro hlt
    rcases hend with rfl | ⟨-, hends⟩
    · exact absurd hlt (Nat.lt_irrefl _)
    · exact hends
  · have hseed : p.options.router.seed + UInt64.ofNat 0 = p.options.router.seed := UInt64.add_zero _
    rwa [hseed] at hleaves

/-! ## The outcome of routing -/

theorem route_of_best (h : p.attempts c p.options.attempts p.options.router.seed .none = .ok (.best o)) :
    p.route c = .ok o := by
  unfold route
  rw [h]
  rfl

theorem route_of_refused (h : p.attempts c p.options.attempts p.options.router.seed .none = .ok (.refused e)) :
    p.route c = .error e := by
  unfold route
  rw [h]
  rfl

theorem route_of_stopped (h : p.attempts c p.options.attempts p.options.router.seed .none = .error e) :
    p.route c = .error e := by
  unfold route
  rw [h]
  rfl

/-- What routing returns is the best outcome of the attempts made. -/
theorem best_of_route (h : p.route c = .ok o) : ∃ m k, p.Made c m ∧ Best (p.outcome c) m k o := by
  obtain ⟨st, hst, h⟩ := bind_eq_ok.mp h
  obtain ⟨m, hmade, hleaves⟩ := exists_made p c
  rw [hst] at hleaves
  obtain _ | ⟨hstands, -⟩ := hleaves
  cases hstands with
  | none => cases h
  | refused => cases h
  | best hb =>
    cases pure_eq_ok.mp h
    exact ⟨m, _, hmade, hb⟩

/-- Of the attempts that are made, one that fails for another reason than its budget decides; otherwise the earliest
    with the fewest SWAPs does, and the last one if the budget never sufficed. There is always one that does. -/
theorem route_is_best_attempt (p : Pipeline) (c : Circuit) :
    (∃ m, p.Made c m ∧ (∀ m', p.Made c m' → m' = m) ∧
      (∀ i < m, ∀ e, p.outcome c i = .error e → ¬ e.IsRefusal → p.route c = .error e) ∧
      ((∀ i < m, ∀ e, p.outcome c i = .error e → e.IsRefusal) → (∃ i < m, ∃ o, p.outcome c i = .ok o) →
        ∃ k o, Best (p.outcome c) m k o ∧ p.route c = .ok o) ∧
      ((∀ i < m, ∃ e, p.outcome c i = .error e ∧ e.IsRefusal) → p.route c = p.outcome c (m - 1))) ∧
    p.attempts c p.options.attempts p.options.router.seed .none ≠ .ok .none := by
  obtain ⟨m, hmade, hleaves⟩ := exists_made p c
  generalize hx : p.attempts c p.options.attempts p.options.router.seed .none = x at hleaves
  cases hleaves with
  | @stopped m e he hhard =>
    refine ⟨⟨m + 1, hmade, fun m' h' => h'.unique hmade, ?_, ?_, ?_⟩, ?_⟩
    · intro i hi e' he' hhard'
      obtain rfl : i = m := Nat.succ.inj (hmade.eq_last hi (he' ▸ ends_error_iff.mpr hhard'))
      rw [he] at he'
      cases he'
      exact route_of_stopped hx
    · intro hall
      exact absurd (hall m (Nat.lt_succ_self m) e he) hhard
    · intro hall
      obtain ⟨e', he', href⟩ := hall m (Nat.lt_succ_self m)
      rw [he] at he'
      cases he'
      exact absurd href hhard
    · intro h
      cases h
  | @standing m st hst hrefusals =>
    refine ⟨⟨m, hmade, fun m' h' => h'.unique hmade, ?_, ?_, ?_⟩, ?_⟩
    · intro i hi e he hhard
      exact absurd (hrefusals i hi e he) hhard
    · intro _ hok
      obtain ⟨k, o, hb, rfl⟩ := hst.exists_best hok
      exact ⟨k, o, hb, route_of_best hx⟩
    · intro hall
      obtain ⟨e, rfl, hlast⟩ := hst.exists_refused hmade.pos fun i hi => (hall i hi).imp fun _ h => h.1
      exact (route_of_refused hx).trans hlast.symm
    · intro h
      cases h
      exact hst.ne_none hmade.pos rfl

end Pipeline

end CircuitMapping
