/-
  CircuitMapping.Proofs.Highest — the highest of some values, when it is computed one value after the other.
-/
import Mathlib.Order.MinMax

namespace CircuitMapping

variable {α ι : Type} [LinearOrder α]

/-- The running maximum has no other upper bounds than its start and its values have in common. -/
theorem foldl_max_le_iff {f : ι → α} {xs : List ι} {a b : α} :
    xs.foldl (fun m x => max m (f x)) a ≤ b ↔ a ≤ b ∧ ∀ x ∈ xs, f x ≤ b := by
  induction xs generalizing a with
  | nil => simp
  | cons x xs ih =>
    rw [List.foldl_cons, ih, max_le_iff, List.forall_mem_cons, and_assoc]

theorem le_foldl_max (f : ι → α) (xs : List ι) (a : α) : a ≤ xs.foldl (fun m x => max m (f x)) a :=
  (foldl_max_le_iff.mp le_rfl).1

theorem le_foldl_max_of_mem (f : ι → α) {xs : List ι} (a : α) {x : ι} (h : x ∈ xs) :
    f x ≤ xs.foldl (fun m x => max m (f x)) a :=
  (foldl_max_le_iff.mp le_rfl).2 x h

/-- The highest value is the start or one of the values. -/
theorem foldl_max_eq_or_mem (f : ι → α) (xs : List ι) (a : α) :
    xs.foldl (fun m x => max m (f x)) a = a ∨ ∃ x ∈ xs, xs.foldl (fun m x => max m (f x)) a = f x := by
  induction xs generalizing a with
  | nil => exact .inl rfl
  | cons x xs ih =>
    rw [List.foldl_cons]
    rcases ih (max a (f x)) with h | ⟨y, hy, h⟩
    · rw [h]
      rcases max_choice a (f x) with h | h
      · exact .inl h
      · exact .inr ⟨x, List.mem_cons_self .., h⟩
    · exact .inr ⟨y, List.mem_cons_of_mem x hy, h⟩

/-- The order of the values does not matter. -/
theorem foldl_max_eq_of_mem_iff {xs ys : List ι} (h : ∀ x, x ∈ xs ↔ x ∈ ys) (f : ι → α) (a : α) :
    xs.foldl (fun m x => max m (f x)) a = ys.foldl (fun m x => max m (f x)) a := by
  refine eq_of_forall_ge_iff fun b => ?_
  simp only [foldl_max_le_iff, h]

end CircuitMapping
