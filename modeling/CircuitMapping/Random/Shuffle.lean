/-
  CircuitMapping.Random.Shuffle — a random arrangement of a list.

  Positions are settled from the front: the element at position `r` trades places with one at a position up to `r`.
  One draw below `r * (r + 1)` serves two neighbouring positions, its quotient and remainder by `r + 1`; when the
  number of elements is even, position 1 is settled alone by a draw below 2. Proved: whatever the source draws, the
  result has the same elements (`shuffle_perm`).
-/
import CircuitMapping.Random.Source
import CircuitMapping.Sorting.Places

namespace CircuitMapping.Source

variable {σ : Type} [Source σ] {α : Type}

/-- Settles positions `i` and `i + 1` with one draw. -/
def settlePair (st : Array α × σ) (i : Nat) : Array α × σ :=
  let draw := below ((i + 1) * (i + 2)) st.2
  ((st.1.swapIfInBounds i (draw.1 / (i + 2))).swapIfInBounds (i + 1) (draw.1 % (i + 2)), draw.2)

/-- Settles position 1 alone, which leaves an even number of positions to settle in pairs. -/
def settleFirst (xs : Array α) (s : σ) : Array α × σ :=
  if xs.size % 2 = 0 ∧ xs.size ≠ 0 then
    let draw := below 2 s
    (xs.swapIfInBounds 1 draw.1, draw.2)
  else (xs, s)

/-- The first position of each pair among `n` positions. -/
def pairStarts (n : Nat) : List Nat :=
  (List.range ((n - 1) / 2)).map fun k => 2 * k + if n % 2 = 0 then 2 else 1

def shuffle (xs : List α) (s : σ) : List α × σ :=
  let st := (pairStarts xs.length).foldl settlePair (settleFirst xs.toArray s)
  (st.1.toList, st.2)

/-! ## The same elements -/

theorem foldl_settlePair_perm (is : List Nat) (st : Array α × σ) : (is.foldl settlePair st).1.Perm st.1 := by
  induction is generalizing st with
  | nil => exact .rfl
  | cons i is ih => exact (ih _).trans ((Sorting.swapIfInBounds_perm _ _ _).trans (Sorting.swapIfInBounds_perm _ _ _))

theorem settleFirst_perm (xs : Array α) (s : σ) : (settleFirst xs s).1.Perm xs := by
  unfold settleFirst
  split
  · exact Sorting.swapIfInBounds_perm _ _ _
  · exact .rfl

theorem shuffle_perm (xs : List α) (s : σ) : (shuffle xs s).1.Perm xs := by
  have h := (foldl_settlePair_perm (pairStarts xs.length) (settleFirst xs.toArray s)).trans (settleFirst_perm _ _)
  exact h.toList

end CircuitMapping.Source
