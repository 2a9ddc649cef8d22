/-
  CircuitMapping.Sorting.Places — comparing and exchanging the elements at two places of an array.

  Algorithms that only compare and exchange rearrange their array and never lose an element: `swapIfInBounds_perm` is
  the one step of that argument.
-/

namespace CircuitMapping.Sorting

variable {α : Type}

/-- Whether the element at place `i` comes before the one at place `j`; false where there is no element. -/
def comesBefore (before : α → α → Bool) (xs : Array α) (i j : Nat) : Bool :=
  match xs[i]?, xs[j]? with
  | some a, some b => before a b
  | _, _ => false

theorem swapIfInBounds_perm (xs : Array α) (i j : Nat) : (xs.swapIfInBounds i j).Perm xs := by
  unfold Array.swapIfInBounds
  split
  · split
    · exact Array.swap_perm _ _
    · exact .rfl
  · exact .rfl

end CircuitMapping.Sorting
