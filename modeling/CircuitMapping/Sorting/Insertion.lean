/-
  CircuitMapping.Sorting.Insertion — sorting by insertion: elements that are not ordered keep their order.

  The order is given by when one element comes before another. Proved: the result has the same elements
  (`insertionSort_perm`), and for a weak order no element of it comes before an earlier one (`insertionSort_sorted`).
-/

namespace CircuitMapping.Sorting

variable {α : Type} (before : α → α → Bool)

/-- Puts an element in front of the first that does not come before it. -/
def insert (x : α) : List α → List α
  | [] => [x]
  | y :: ys => if before y x then y :: insert x ys else x :: y :: ys

def insertionSort (xs : List α) : List α := xs.foldr (insert before) []

/-- No element comes before an earlier one. -/
def Sorted (xs : List α) : Prop := xs.Pairwise fun a b => before b a = false

/-- An order in which being ordered neither way is an equivalence. -/
structure WeakOrder : Prop where
  asymm : ∀ {a b : α}, before a b = true → before b a = false
  trans : ∀ {a b c : α}, before b a = false → before c b = false → before c a = false

variable {before}

theorem insert_perm (x : α) (ys : List α) : (insert before x ys).Perm (x :: ys) := by
  induction ys with
  | nil => exact .rfl
  | cons y ys ih =>
    unfold insert
    split
    · exact (List.Perm.cons y ih).trans (.swap x y ys)
    · exact .rfl

theorem insertionSort_perm (xs : List α) : (insertionSort before xs).Perm xs := by
  induction xs with
  | nil => exact .rfl
  | cons x xs ih => exact (insert_perm x _).trans (ih.cons x)

theorem insert_sorted (w : WeakOrder before) (x : α) {ys : List α} (h : Sorted before ys) :
    Sorted before (insert before x ys) := by
  induction ys with
  | nil => exact List.pairwise_singleton _ _
  | cons y ys ih =>
    obtain ⟨hy, hys⟩ := List.pairwise_cons.mp h
    unfold insert
    split
    · rename_i hyx
      refine List.pairwise_cons.mpr ⟨fun z hz => ?_, ih hys⟩
      rcases List.mem_cons.mp ((insert_perm x ys).mem_iff.mp hz) with rfl | hz
      · exact w.asymm hyx
      · exact hy z hz
    · rename_i hyx
      have hyx : before y x = false := by simpa using hyx
      refine List.pairwise_cons.mpr ⟨fun z hz => ?_, h⟩
      rcases List.mem_cons.mp hz with rfl | hz
      · exact hyx
      · exact w.trans hyx (hy z hz)

theorem insertionSort_sorted (w : WeakOrder before) (xs : List α) : Sorted before (insertionSort before xs) := by
  induction xs with
  | nil => exact List.Pairwise.nil
  | cons x xs ih => exact insert_sorted w x ih

end CircuitMapping.Sorting
