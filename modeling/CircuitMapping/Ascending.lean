/-
  CircuitMapping.Ascending — lists kept strictly ascending: the one written form of a finite set.

  `insert` puts an element at its place, `ofList` collects a list, and `put` does the same for keys with values.
  Proved: `insert` and `ofList` hold exactly what was put in (`mem_insert`, `mem_ofList`) and stay ascending
  (`insert_ascending`, `ofList_ascending`); two ascending lists with the same elements are equal
  (`eq_of_mem_iff`), so neither the order nor the repetition of insertions ever shows.
-/

namespace CircuitMapping

/-- A strict order in which elements that are not ordered are equal. -/
class StrictTotal (α : Type) [LT α] : Prop where
  irrefl : ∀ a : α, ¬ a < a
  trans : ∀ {a b c : α}, a < b → b < c → a < c
  tri : ∀ {a b : α}, ¬ a < b → ¬ b < a → a = b

instance : StrictTotal Nat := ⟨Nat.lt_irrefl, Nat.lt_trans, fun h h' => by omega⟩

namespace Ascending

variable {α β : Type} [LT α] [DecidableLT α]

/-- Adds an element at its place; an element already there is not added twice. -/
def insert (x : α) : List α → List α
  | [] => [x]
  | y :: ys => if x < y then x :: y :: ys else if y < x then y :: insert x ys else y :: ys

/-- The elements of a list, ascending and without repetition. -/
def ofList (xs : List α) : List α := xs.foldl (fun s x => insert x s) []

/-- Gives a key its value in a list of keys with values, ascending by key; an old value is replaced. -/
def put (k : α) (v : β) : List (α × β) → List (α × β)
  | [] => [(k, v)]
  | (k', v') :: r =>
    if k < k' then (k, v) :: (k', v') :: r else if k' < k then (k', v') :: put k v r else (k', v) :: r

/-! ## Members -/

variable [StrictTotal α]

theorem mem_insert {x z : α} {ys : List α} : z ∈ insert x ys ↔ z = x ∨ z ∈ ys := by
  induction ys with
  | nil => simp [insert]
  | cons y ys ih =>
    unfold insert
    split
    · simp
    · split
      · simp only [List.mem_cons, ih]
        exact ⟨fun h => h.elim (fun h => .inr (.inl h)) (fun h => h.elim .inl (fun h => .inr (.inr h))),
          fun h => h.elim (fun h => .inr (.inl h)) (fun h => h.elim .inl (fun h => .inr (.inr h)))⟩
      · rename_i h h'
        have e : x = y := StrictTotal.tri h h'
        subst e
        simp

theorem mem_foldl_insert {z : α} (xs : List α) (s : List α) :
    z ∈ xs.foldl (fun s x => insert x s) s ↔ z ∈ s ∨ z ∈ xs := by
  induction xs generalizing s with
  | nil => simp
  | cons x xs ih =>
    rw [List.foldl_cons, ih, mem_insert, List.mem_cons]
    exact ⟨fun h => h.elim (fun h => h.elim (fun h => .inr (.inl h)) .inl) (fun h => .inr (.inr h)),
      fun h => h.elim (fun h => .inl (.inr h)) (fun h => h.elim (fun h => .inl (.inl h)) .inr)⟩

theorem mem_ofList {z : α} {xs : List α} : z ∈ ofList xs ↔ z ∈ xs := by
  simp [ofList, mem_foldl_insert]

theorem length_insert {x : α} {ys : List α} (h : x ∉ ys) : (insert x ys).length = ys.length + 1 := by
  induction ys with
  | nil => rfl
  | cons y ys ih =>
    obtain ⟨hne, hys⟩ := List.ne_and_not_mem_of_not_mem_cons h
    unfold insert
    split
    · rfl
    · split
      · rw [List.length_cons, ih hys, List.length_cons]
      · rename_i hxy hyx
        exact absurd (StrictTotal.tri hxy hyx) hne

/-! ## Order -/

theorem insert_ascending {x : α} {ys : List α} (h : ys.Pairwise (· < ·)) : (insert x ys).Pairwise (· < ·) := by
  induction ys with
  | nil => simp [insert]
  | cons y ys ih =>
    obtain ⟨hy, hys⟩ := List.pairwise_cons.mp h
    unfold insert
    split
    · rename_i hxy
      refine List.pairwise_cons.mpr ⟨fun z hz => ?_, h⟩
      rcases List.mem_cons.mp hz with rfl | hz
      · exact hxy
      · exact StrictTotal.trans hxy (hy z hz)
    · split
      · rename_i hyx
        refine List.pairwise_cons.mpr ⟨fun z hz => ?_, ih hys⟩
        rcases mem_insert.mp hz with rfl | hz
        · exact hyx
        · exact hy z hz
      · exact h

theorem foldl_insert_ascending (xs : List α) {s : List α} (h : s.Pairwise (· < ·)) :
    (xs.foldl (fun s x => insert x s) s).Pairwise (· < ·) := by
  induction xs generalizing s with
  | nil => exact h
  | cons x xs ih => exact ih (insert_ascending h)

theorem ofList_ascending (xs : List α) : (ofList xs).Pairwise (· < ·) :=
  foldl_insert_ascending xs List.Pairwise.nil

omit [DecidableLT α] in
theorem nodup {xs : List α} (h : xs.Pairwise (· < ·)) : xs.Nodup :=
  h.imp fun {a b} hab (e : a = b) => StrictTotal.irrefl b (e ▸ hab)

omit [DecidableLT α] in
/-- A set has one ascending list. -/
theorem eq_of_mem_iff {xs ys : List α} (hx : xs.Pairwise (· < ·)) (hy : ys.Pairwise (· < ·))
    (h : ∀ z, z ∈ xs ↔ z ∈ ys) : xs = ys := by
  induction xs generalizing ys with
  | nil =>
    cases ys with
    | nil => rfl
    | cons y ys => exact absurd ((h y).mpr (List.mem_cons_self ..)) (List.not_mem_nil)
  | cons x xs ih =>
    cases ys with
    | nil => exact absurd ((h x).mp (List.mem_cons_self ..)) (List.not_mem_nil)
    | cons y ys =>
      obtain ⟨hx1, hx2⟩ := List.pairwise_cons.mp hx
      obtain ⟨hy1, hy2⟩ := List.pairwise_cons.mp hy
      have e : x = y := by
        refine StrictTotal.tri (fun hlt => ?_) (fun hlt => ?_)
        · rcases List.mem_cons.mp ((h x).mp (List.mem_cons_self ..)) with e | m
          · exact StrictTotal.irrefl _ (e ▸ hlt)
          · exact StrictTotal.irrefl _ (StrictTotal.trans hlt (hy1 x m))
        · rcases List.mem_cons.mp ((h y).mpr (List.mem_cons_self ..)) with e | m
          · exact StrictTotal.irrefl _ (e ▸ hlt)
          · exact StrictTotal.irrefl _ (StrictTotal.trans hlt (hx1 y m))
      subst e
      rw [ih hx2 hy2 fun z => ⟨fun hz => ?_, fun hz => ?_⟩]
      · rcases List.mem_cons.mp ((h z).mp (List.mem_cons_of_mem _ hz)) with e | m
        · exact absurd (e ▸ hx1 z hz) (StrictTotal.irrefl _)
        · exact m
      · rcases List.mem_cons.mp ((h z).mpr (List.mem_cons_of_mem _ hz)) with e | m
        · exact absurd (e ▸ hy1 z hz) (StrictTotal.irrefl _)
        · exact m

end Ascending

end CircuitMapping
