/-
  CircuitMapping.Number.Word — counts held in 64 bits.

  Register widths, cell numbers and seeds live in 64-bit words. Arithmetic on them is arithmetic modulo `2 ^ 64`
  (`wrap`); it shows only at the top of the range, where the successor of the last word is 0 (`succ_last`).
-/

namespace CircuitMapping.Word

/-- The number of 64-bit words. -/
def count : Nat := 18446744073709551616

/-- What a 64-bit word holds of a number. -/
def wrap (n : Nat) : Nat := n % count

/-- The word after `n`. -/
def succ (n : Nat) : Nat := wrap (n + 1)

theorem wrap_of_lt {n : Nat} (h : n < count) : wrap n = n := Nat.mod_eq_of_lt h

theorem wrap_lt (n : Nat) : wrap n < count := Nat.mod_lt _ (by decide)

theorem succ_of_lt {n : Nat} (h : n + 1 < count) : succ n = n + 1 := wrap_of_lt h

theorem succ_last : succ (count - 1) = 0 := by decide

end CircuitMapping.Word
