/-
  CircuitMapping.Sorting.Introsort — sorting by quicksort down to short segments, then by insertion.

  A segment of more than 16 elements is split around the median of three of them, and both parts are treated alike.
  After twice as many splits as the length has binary digits beyond the first, what is left of a segment is sorted
  by a heap instead. At last everything is sorted by insertion.

  Elements that are not ordered come out in the order in which these exchanges leave them. Proved: whatever the splits
  did, the result has the same elements (`introsort_perm`) and is sorted (`introsort_sorted`); up to 16 elements it is
  the result of insertion alone, which keeps ties in their order (`introsort_short`).
-/
import CircuitMapping.Sorting.Insertion
import CircuitMapping.Sorting.Places

namespace CircuitMapping.Sorting

variable {α : Type} (before : α → α → Bool)

/-- Segments up to this length are left to insertion. -/
def shortLength : Nat := 16

/-! ## Splitting a segment -/

/-- The first place from `i` on whose element does not come before the one at `pivot`, within so many places. -/
def scanUp (xs : Array α) (pivot : Nat) : Nat → Nat → Nat
  | 0, i => i
  | n + 1, i => if comesBefore before xs i pivot then scanUp xs pivot n (i + 1) else i

/-- The last place up to `j` whose element the one at `pivot` does not come before. -/
def scanDown (xs : Array α) (pivot : Nat) : Nat → Nat
  | 0 => 0
  | j + 1 => if comesBefore before xs pivot (j + 1) then scanDown xs pivot j else j + 1

/-- Exchanges elements on the wrong side between places `i` and `j`, in at most so many exchanges, and tells where
    the second part begins. -/
def split (pivot : Nat) : Nat → Nat → Nat → Array α → Array α × Nat
  | 0, i, _, xs => (xs, i)
  | n + 1, i, j, xs =>
    let i := scanUp before xs pivot xs.size i
    let j := scanDown before xs pivot (j - 1)
    if i < j then split pivot n (i + 1) j (xs.swapIfInBounds i j) else (xs, i)

/-- The place with the median of the elements at three places. -/
def median (xs : Array α) (a b c : Nat) : Nat :=
  if comesBefore before xs a b then
    if comesBefore before xs b c then b else if comesBefore before xs a c then c else a
  else if comesBefore before xs a c then a
  else if comesBefore before xs b c then c
  else b

/-- Splits the places from `lo` up to `hi` around a median, which is first brought to `lo`. -/
def splitSegment (lo hi : Nat) (xs : Array α) : Array α × Nat :=
  let m := median before xs (lo + 1) (lo + (hi - lo) / 2) (hi - 1)
  split before lo (hi - lo) (lo + 1) hi (xs.swapIfInBounds lo m)

/-! ## Heaps

  The segment of `len` places from `lo` on is a binary tree: below place `i` of the segment are places `2 * i + 1` and
  `2 * i + 2`. -/

/-- Moves the element at place `i` down to a leaf, each time exchanging it with its later child. -/
def sink (lo len : Nat) : Nat → Nat → Array α → Array α × Nat
  | 0, i, xs => (xs, i)
  | n + 1, i, xs =>
    if i < (len - 1) / 2 then
      let right := 2 * i + 2
      let child := if comesBefore before xs (lo + right) (lo + right - 1) then right - 1 else right
      sink lo len n child (xs.swapIfInBounds (lo + i) (lo + child))
    else if len % 2 = 0 ∧ i = (len - 2) / 2 then (xs.swapIfInBounds (lo + i) (lo + 2 * i + 1), 2 * i + 1)
    else (xs, i)

/-- Moves the element at place `i` up, not beyond `top`, while its parent comes before it. -/
def rise (lo top : Nat) : Nat → Nat → Array α → Array α
  | 0, _, xs => xs
  | n + 1, i, xs =>
    let parent := (i - 1) / 2
    if top < i ∧ comesBefore before xs (lo + parent) (lo + i) then
      rise lo top n parent (xs.swapIfInBounds (lo + i) (lo + parent))
    else xs

/-- Settles the element at place `i`, below which the tree is a heap. -/
def settle (lo len i : Nat) (xs : Array α) : Array α :=
  let sunk := sink before lo len len i xs
  rise before lo i len sunk.2 sunk.1

def makeHeap (lo len : Nat) (xs : Array α) : Array α :=
  (List.range (len / 2)).reverse.foldl (fun xs i => settle before lo len i xs) xs

/-- Takes the last of `n + 2` elements off a heap, to the place behind the others. -/
def takeLast (lo : Nat) (xs : Array α) (n : Nat) : Array α :=
  settle before lo (n + 1) 0 (xs.swapIfInBounds lo (lo + n + 1))

def heapSort (lo len : Nat) (xs : Array α) : Array α :=
  (List.range (len - 1)).reverse.foldl (takeLast before lo) (makeHeap before lo len xs)

/-! ## The whole -/

/-- Splits the places from `lo` up to `hi` with at most so many splits, one inside the other. -/
def arrange : Nat → Nat → Nat → Array α → Array α
  | 0, lo, hi, xs => if shortLength < hi - lo then heapSort before lo (hi - lo) xs else xs
  | n + 1, lo, hi, xs =>
    if shortLength < hi - lo then
      let parts := splitSegment before lo hi xs
      arrange n lo parts.2 (arrange n parts.2 hi parts.1)
    else xs

def introsort (xs : List α) : List α :=
  insertionSort before (arrange before (2 * xs.length.log2) 0 xs.length xs.toArray).toList

/-! ## The same elements -/

variable {before}

theorem split_perm (pivot n i j : Nat) (xs : Array α) : (split before pivot n i j xs).1.Perm xs := by
  induction n generalizing i j xs with
  | zero => exact .rfl
  | succ n ih =>
    unfold split
    dsimp only
    split
    · exact (ih _ _ _).trans (swapIfInBounds_perm _ _ _)
    · exact .rfl

theorem sink_perm (lo len n i : Nat) (xs : Array α) : (sink before lo len n i xs).1.Perm xs := by
  induction n generalizing i xs with
  | zero => exact .rfl
  | succ n ih =>
    unfold sink
    dsimp only
    split
    · exact (ih _ _).trans (swapIfInBounds_perm _ _ _)
    · split
      · exact swapIfInBounds_perm _ _ _
      · exact .rfl

theorem rise_perm (lo top n i : Nat) (xs : Array α) : (rise before lo top n i xs).Perm xs := by
  induction n generalizing i xs with
  | zero => exact .rfl
  | succ n ih =>
    unfold rise
    dsimp only
    split
    · exact (ih _ _).trans (swapIfInBounds_perm _ _ _)
    · exact .rfl

theorem settle_perm (lo len i : Nat) (xs : Array α) : (settle before lo len i xs).Perm xs :=
  (rise_perm _ _ _ _ _).trans (sink_perm _ _ _ _ _)

theorem foldl_perm {β : Type} {f : Array α → β → Array α} (h : ∀ xs b, (f xs b).Perm xs) (bs : List β)
    (xs : Array α) : (bs.foldl f xs).Perm xs := by
  induction bs generalizing xs with
  | nil => exact .rfl
  | cons b bs ih => exact (ih _).trans (h xs b)

theorem heapSort_perm (lo len : Nat) (xs : Array α) : (heapSort before lo len xs).Perm xs :=
  (foldl_perm (fun _ _ => (settle_perm _ _ _ _).trans (swapIfInBounds_perm _ _ _)) _ _).trans
    (foldl_perm (fun _ _ => settle_perm _ _ _ _) _ _)

theorem arrange_perm (n lo hi : Nat) (xs : Array α) : (arrange before n lo hi xs).Perm xs := by
  induction n generalizing lo hi xs with
  | zero =>
    unfold arrange
    split
    · exact heapSort_perm _ _ _
    · exact .rfl
  | succ n ih =>
    unfold arrange
    split
    · exact (ih _ _ _).trans ((ih _ _ _).trans ((split_perm _ _ _ _ _).trans (swapIfInBounds_perm _ _ _)))
    · exact .rfl

theorem introsort_perm (xs : List α) : (introsort before xs).Perm xs :=
  (insertionSort_perm _).trans (arrange_perm _ _ _ _).toList

theorem introsort_sorted (w : WeakOrder before) (xs : List α) : Sorted before (introsort before xs) :=
  insertionSort_sorted w _

theorem introsort_short {xs : List α} (h : xs.length ≤ shortLength) :
    introsort before xs = insertionSort before xs := by
  have stays : ∀ n, arrange before n 0 xs.length xs.toArray = xs.toArray := fun n => by
    cases n <;> exact if_neg (by omega)
  rw [introsort, stays]

end CircuitMapping.Sorting
