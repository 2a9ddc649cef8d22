/-
  CircuitMapping.Random.Source — where choices between equals come from.

  A source of type `σ` draws numbers below a bound and passes its state on. Everything that breaks ties is written
  for any source, so its theorems hold for every seed and for every generator. `Lowest` is the source without a
  generator: it always answers 0. `pick` chooses from a nonempty list and draws only when there is a choice.
-/

namespace CircuitMapping

/-- `below n s` is a number below `n` (when `n` is positive) and the state after the draw. -/
class Source (σ : Type) where
  below : Nat → σ → Nat × σ
  below_lt : ∀ n s, 0 < n → (below n s).1 < n

/-- The source that takes the first of every choice and has no state. -/
structure Lowest where
  deriving DecidableEq, Repr

instance : Source Lowest := ⟨fun _ s => (0, s), fun _ _ h => h⟩

namespace Source

variable {σ : Type} [Source σ] {α : Type}

/-- One of `first :: rest`. A single candidate is taken without a draw. -/
def pick (first : α) (rest : List α) (s : σ) : α × σ :=
  if rest.isEmpty then (first, s)
  else
    let draw := below (rest.length + 1) s
    ((first :: rest).getD draw.1 first, draw.2)

theorem pick_mem (first : α) (rest : List α) (s : σ) : (pick first rest s).1 ∈ first :: rest := by
  unfold pick
  split
  · exact List.mem_cons_self ..
  · have h := below_lt (rest.length + 1) s (Nat.succ_pos _)
    simp only [List.getD_eq_getElem?_getD, List.getElem?_eq_getElem (show _ < (first :: rest).length from h),
      Option.getD_some]
    exact List.getElem_mem _

@[simp] theorem pick_nil (first : α) (s : σ) : pick first [] s = (first, s) := rfl

@[simp] theorem pick_lowest (first : α) (rest : List α) (s : Lowest) : pick first rest s = (first, s) := by
  unfold pick
  split <;> rfl

end Source

end CircuitMapping
