/-
  CircuitMapping.Number.Signed — sums held in signed 64-bit words, or in full.

  Times live in signed 64-bit words. A sum beyond the last word comes out at the other end of the range (`hold`), so
  that a later time can be the smaller number. The same sums can be taken of integers, where that does not happen;
  `Arithmetic` tells which of the two is meant. They agree where the sum is a word (`hold_of_mem`).
-/
namespace CircuitMapping

inductive Arithmetic where
  /-- Integers, however large. -/
  | exact
  /-- Signed 64-bit words. -/
  | words
  deriving DecidableEq, Repr

namespace Arithmetic

/-- What is held of an integer. -/
def hold : Arithmetic → Int → Int
  | exact, t => t
  | words, t => (Int64.ofInt t).toInt

@[simp] theorem hold_exact (t : Int) : exact.hold t = t := rfl

/-- Nothing is lost of a number that is a word. -/
theorem hold_of_mem (a : Arithmetic) {t : Int} (h : Int64.minValue.toInt ≤ t) (h' : t ≤ Int64.maxValue.toInt) :
    a.hold t = t := by
  cases a with
  | exact => rfl
  | words =>
    rw [Int64.toInt_minValue] at h
    rw [Int64.toInt_maxValue] at h'
    exact Int64.toInt_ofInt_of_le h (by omega)

theorem hold_of_nonneg (a : Arithmetic) {t : Int} (h : 0 ≤ t) (h' : t ≤ Int64.maxValue.toInt) : a.hold t = t :=
  a.hold_of_mem (Int.le_trans (by decide) h) h'

/-- What was lost of one summand is lost of the sum anyway. -/
theorem hold_hold_add (a : Arithmetic) (t u : Int) : a.hold (a.hold t + u) = a.hold (t + u) := by
  cases a with
  | exact => rfl
  | words =>
    simp only [hold, Int64.toInt_ofInt]
    exact Int.bmod_add_bmod

/-- The number after the last word is the first one. -/
example : words.hold (Int64.maxValue.toInt + 1) = Int64.minValue.toInt := by decide

end Arithmetic

end CircuitMapping
