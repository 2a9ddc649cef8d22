/-
  CircuitMapping.Proofs.Success — what is known of a computation in steps that succeeded, or failed.

  It succeeded at every step (`bind_eq_ok`), also where the steps are those of a list (`forall₂_of_mapM`). What each of
  its steps keeps holds at its end (`foldlM_keeps`, for numbered steps `foldlM_zipIdx_keeps`), and what each of them
  appends is there in order (`foldlM_appends`); steps that succeed wherever that holds all succeed (`exists_foldlM`).
  One that failed did so at one step, and all steps before that one succeeded (`bind_eq_error`,
  `foldlM_eq_error_iff`); where steps fail by what they take alone, the first that does so gives the error
  (`foldlM_eq_error_iff_findSome?`).
-/
import CircuitMapping.Error
import Mathlib.Data.List.Forall2

namespace CircuitMapping.Success

variable {ε α β σ : Type}

theorem bind_eq_ok {x : Except ε α} {f : α → Except ε β} {b : β} :
    x >>= f = .ok b ↔ ∃ a, x = .ok a ∧ f a = .ok b := by
  cases x with
  | error e =>
    constructor
    · intro h; cases h
    · rintro ⟨a, h, -⟩; cases h
  | ok a =>
    constructor
    · intro h; exact ⟨a, rfl, h⟩
    · rintro ⟨a', h, hf⟩; cases h; exact hf

theorem bind_eq_error {x : Except ε α} {f : α → Except ε β} {e : ε} :
    x >>= f = .error e ↔ x = .error e ∨ ∃ a, x = .ok a ∧ f a = .error e := by
  cases x with
  | error e' =>
    constructor
    · intro h; cases h; exact .inl rfl
    · rintro (h | ⟨a, h, -⟩)
      · cases h; rfl
      · cases h
  | ok a =>
    constructor
    · intro h; exact .inr ⟨a, rfl, h⟩
    · rintro (h | ⟨a', h, hf⟩)
      · cases h
      · cases h; exact hf

/-- Reading a result off changes neither whether there is one nor the error. -/
theorem exists_bind_ok_iff {x : Except ε α} {f : α → β} :
    (∃ b, (x >>= fun a => .ok (f a)) = .ok b) ↔ ∃ a, x = .ok a := by
  constructor
  · intro ⟨b, h⟩
    obtain ⟨a, h, -⟩ := bind_eq_ok.mp h
    exact ⟨a, h⟩
  · intro ⟨a, h⟩
    exact ⟨f a, bind_eq_ok.mpr ⟨a, h, rfl⟩⟩

theorem bind_ok_eq_error_iff {x : Except ε α} {f : α → β} {e : ε} :
    (x >>= fun a => .ok (f a)) = .error e ↔ x = .error e := by
  cases x with
  | error e' => exact ⟨fun h => by cases h; rfl, fun h => by cases h; rfl⟩
  | ok a => exact ⟨fun h => (by cases h), fun h => (by cases h)⟩

theorem pure_eq_ok {a b : α} : (pure a : Except ε α) = .ok b ↔ a = b := by
  constructor
  · intro h; cases h; rfl
  · rintro rfl; rfl

/-- A check passed in front of a computation that succeeded. -/
theorem guard_eq_ok {γ : Type} {p : Prop} [Decidable p] {e : ε} {k : γ → Except ε α} {x : Except ε α} {b : α} :
    (if p then throw e >>= k else x) = .ok b ↔ ¬ p ∧ x = .ok b := by
  split
  · rename_i h
    constructor
    · intro h'; cases h'
    · intro h'; exact absurd h h'.1
  · rename_i h
    exact ⟨fun h' => ⟨h, h'⟩, fun h' => h'.2⟩

theorem guard_eq_error {γ : Type} {p : Prop} [Decidable p] {e e' : ε} {k : γ → Except ε α} {x : Except ε α} :
    (if p then throw e >>= k else x) = .error e' ↔ p ∧ e = e' ∨ ¬ p ∧ x = .error e' := by
  split
  · rename_i h
    constructor
    · intro h'; cases h'; exact .inl ⟨h, rfl⟩
    · rintro (⟨-, rfl⟩ | h')
      · rfl
      · exact absurd h h'.1
  · rename_i h
    constructor
    · intro h'; exact .inr ⟨h, h'⟩
    · rintro (h' | h')
      · exact absurd h'.1 h
      · exact h'.2

/-- A computation with a known reading of its result succeeded. -/
theorem exists_ok_of_map {x : Except ε α} {f : α → β} {b : β} (h : x.toOption.map f = some b) :
    ∃ a, x = .ok a ∧ f a = b := by
  cases x with
  | error e => cases h
  | ok a => exact ⟨a, rfl, Option.some.inj h⟩

theorem forall₂_of_mapM {f : α → Except ε β} {xs : List α} {ys : List β} (h : xs.mapM f = .ok ys) :
    List.Forall₂ (fun x y => f x = .ok y) xs ys := by
  induction xs generalizing ys with
  | nil => cases h; exact .nil
  | cons x xs ih =>
    rw [List.mapM_cons] at h
    obtain ⟨y, hy, h⟩ := bind_eq_ok.mp h
    obtain ⟨rest, hrest, h⟩ := bind_eq_ok.mp h
    rw [← pure_eq_ok.mp h]
    exact .cons hy (ih hrest)

/-- Every entry of the second list has one of the first that it is related to. -/
theorem exists_of_forall₂ {R : α → β → Prop} {xs : List α} {ys : List β} (h : List.Forall₂ R xs ys) {y : β}
    (hy : y ∈ ys) : ∃ x ∈ xs, R x y := by
  induction h with
  | nil => cases hy
  | @cons x z xs ys hxz _ ih =>
    rcases List.mem_cons.mp hy with rfl | hy
    · exact ⟨x, List.mem_cons_self .., hxz⟩
    · obtain ⟨x', hx', hR⟩ := ih hy
      exact ⟨x', List.mem_cons_of_mem x hx', hR⟩

theorem exists_mapM {f : α → Except ε β} {xs : List α} (h : ∀ x ∈ xs, ∃ y, f x = .ok y) : ∃ ys, xs.mapM f = .ok ys := by
  induction xs with
  | nil => exact ⟨[], rfl⟩
  | cons x xs ih =>
    obtain ⟨y, hy⟩ := h x (List.mem_cons_self ..)
    obtain ⟨ys, hys⟩ := ih fun z hz => h z (List.mem_cons_of_mem x hz)
    refine ⟨y :: ys, ?_⟩
    rw [List.mapM_cons]
    exact bind_eq_ok.mpr ⟨y, hy, bind_eq_ok.mpr ⟨ys, hys, rfl⟩⟩

theorem foldlM_keeps {f : σ → α → Except ε σ} {P : σ → Prop} {xs : List α}
    (hf : ∀ s, ∀ x ∈ xs, ∀ s', P s → f s x = .ok s' → P s') {s s' : σ} (hs : P s) (h : xs.foldlM f s = .ok s') :
    P s' := by
  induction xs generalizing s with
  | nil => cases h; exact hs
  | cons x xs ih =>
    obtain ⟨t, ht, h⟩ := bind_eq_ok.mp h
    exact ih (fun u y hy => hf u y (List.mem_cons_of_mem _ hy)) (hf s x (List.mem_cons_self ..) t hs ht) h

/-- Where steps succeed one after the other, each of them does. -/
theorem exists_step_of_foldlM {f : σ → α → Except ε σ} {xs : List α} {s s' : σ} (h : xs.foldlM f s = .ok s') {x : α}
    (hx : x ∈ xs) : ∃ t t', f t x = .ok t' := by
  induction xs generalizing s with
  | nil => cases hx
  | cons y xs ih =>
    obtain ⟨t, ht, h⟩ := bind_eq_ok.mp h
    rcases List.mem_cons.mp hx with rfl | hx
    · exact ⟨s, t, ht⟩
    · exact ih h hx

/-- The same where steps are numbered and what they keep depends on the number. -/
theorem foldlM_zipIdx_keeps {f : σ → α × Nat → Except ε σ} {P : Nat → σ → Prop} {xs : List α} {k : Nat}
    (hf : ∀ s x k s', P k s → f s (x, k) = .ok s' → P (k + 1) s') {s s' : σ} (hs : P k s)
    (h : (xs.zipIdx k).foldlM f s = .ok s') : P (k + xs.length) s' := by
  induction xs generalizing k s with
  | nil => cases h; exact hs
  | cons x xs ih =>
    obtain ⟨t, ht, h⟩ := bind_eq_ok.mp h
    have hP := ih (hf s x k t hs ht) h
    rwa [Nat.add_assoc, Nat.add_comm 1] at hP

/-- Steps that succeed on what they keep succeed one after the other. -/
theorem exists_foldlM {f : σ → α → Except ε σ} {P : σ → Prop} {xs : List α}
    (hf : ∀ s, ∀ x ∈ xs, P s → ∃ s', f s x = .ok s' ∧ P s') {s : σ} (hs : P s) :
    ∃ s', xs.foldlM f s = .ok s' ∧ P s' := by
  induction xs generalizing s with
  | nil => exact ⟨s, rfl, hs⟩
  | cons x xs ih =>
    obtain ⟨t, ht, hP⟩ := hf s x (List.mem_cons_self ..) hs
    obtain ⟨s', hs', hP'⟩ := ih (fun u y hy => hf u y (List.mem_cons_of_mem _ hy)) hP
    exact ⟨s', bind_eq_ok.mpr ⟨t, ht, hs'⟩, hP'⟩

/-- Steps one after the other fail at the first that fails. -/
theorem foldlM_eq_error_iff {f : σ → α → Except ε σ} {xs : List α} {s : σ} {e : ε} :
    xs.foldlM f s = .error e ↔ ∃ ys x zs t, xs = ys ++ x :: zs ∧ ys.foldlM f s = .ok t ∧ f t x = .error e := by
  constructor
  · intro h
    induction xs generalizing s with
    | nil => cases h
    | cons x xs ih =>
      rcases bind_eq_error.mp h with h | ⟨t, ht, h⟩
      · exact ⟨[], x, xs, s, rfl, rfl, h⟩
      · obtain ⟨ys, y, zs, u, rfl, hu, hy⟩ := ih h
        exact ⟨x :: ys, y, zs, u, rfl, bind_eq_ok.mpr ⟨t, ht, hu⟩, hy⟩
  · rintro ⟨ys, x, zs, t, rfl, ht, hx⟩
    rw [List.foldlM_append]
    exact bind_eq_error.mpr (.inr ⟨t, ht, bind_eq_error.mpr (.inl hx)⟩)

/-- Steps that fail by what they take alone fail with the first error of the list. -/
theorem foldlM_eq_error_iff_findSome? {f : σ → α → Except ε σ} {fault : α → Option ε}
    (hf : ∀ s x e, f s x = .error e ↔ fault x = some e) {xs : List α} {s : σ} {e : ε} :
    xs.foldlM f s = .error e ↔ xs.findSome? fault = some e := by
  induction xs generalizing s with
  | nil =>
    constructor
    · intro h; cases h
    · intro h; cases h
  | cons x xs ih =>
    rw [List.foldlM_cons, List.findSome?_cons]
    cases hx : f s x with
    | error e' =>
      rw [(hf s x e').mp hx]
      constructor
      · intro h; cases h; rfl
      · intro h; cases h; rfl
    | ok t =>
      have hnone : fault x = none := by
        refine Option.eq_none_iff_forall_ne_some.mpr fun e' he => ?_
        cases hx.symm.trans ((hf s x e').mpr he)
      rw [hnone]
      exact ih

theorem findSome?_flatMap {γ : Type} (f : α → List β) (g : β → Option γ) (xs : List α) :
    (xs.flatMap f).findSome? g = xs.findSome? fun x => (f x).findSome? g := by
  induction xs with
  | nil => rfl
  | cons x xs ih =>
    rw [List.flatMap_cons, List.findSome?_append, List.findSome?_cons, ih]
    cases (f x).findSome? g with
    | none => rfl
    | some y => rfl

/-- What each step appends to a list is appended by all of them in order. -/
theorem foldlM_appends {γ : Type} {f : σ → α → Except ε σ} {v : σ → List γ} {w : α → List γ}
    (hf : ∀ s x s', f s x = .ok s' → v s' = v s ++ w x) {xs : List α} {s s' : σ} (h : xs.foldlM f s = .ok s') :
    v s' = v s ++ xs.flatMap w := by
  induction xs generalizing s with
  | nil => cases h; simp
  | cons x xs ih =>
    obtain ⟨t, ht, h⟩ := bind_eq_ok.mp h
    rw [ih h, hf s x t ht, List.append_assoc, List.flatMap_cons]

end CircuitMapping.Success
