/-
  CircuitMapping.Number.Binary64 — double-precision numbers as they are written: by their 64 bits.

  A sign bit is followed by eleven bits of exponent and 52 of fraction. Bits tell more apart than arithmetic does: a
  zero and a NaN have a sign too, and both are shown in text. Everything here is read off the bits; only `times`
  rounds, which is left to the arithmetic of `Float`.

  Two numbers agree (`agrees`) when they have the same value: zeros of either sign do, and a NaN agrees with nothing.
  Proved: agreement is symmetric, and a number agrees with itself unless it is a NaN (`agrees_comm`, `agrees_self`).
-/
import CircuitMapping.Number.Dyadic

namespace CircuitMapping

structure Binary64 where
  bits : UInt64
  deriving DecidableEq, Repr

namespace Binary64

def ofFloat (x : Float) : Binary64 := ⟨x.toBits⟩

def toFloat (x : Binary64) : Float := Float.ofBits x.bits

/-! ## Fields -/

/-- The number of fractions that 52 bits hold. -/
def fractions : Nat := 1 <<< 52

def fraction (x : Binary64) : Nat := x.bits.toNat % fractions

def exponent (x : Binary64) : Nat := x.bits.toNat / fractions % 2048

def isNegative (x : Binary64) : Bool := x.bits.toNat / (2048 * fractions) == 1

/-! ## Kinds of numbers -/

/-- The largest exponent marks what is not finite. -/
def isFinite (x : Binary64) : Bool := x.exponent != 2047

def isNaN (x : Binary64) : Bool := x.exponent == 2047 && x.fraction != 0

def isInfinite (x : Binary64) : Bool := x.exponent == 2047 && x.fraction == 0

def isZero (x : Binary64) : Bool := x.exponent == 0 && x.fraction == 0

/-- Finite numbers from zero on, of which a negative zero is one. -/
def isAmount (x : Binary64) : Bool := x.isFinite && (!x.isNegative || x.isZero)

/-! ## Values -/

/-- The magnitude of a finite number. A zero exponent marks the numbers without the leading bit. -/
def magnitude (x : Binary64) : Dyadic :=
  if x.exponent = 0 then ⟨x.fraction, -1074⟩ else ⟨fractions + x.fraction, x.exponent - 1075⟩

/-- The product with a whole number, both rounded. -/
def times (x : Binary64) (n : Nat) : Binary64 := ofFloat (x.toFloat * Float.ofNat n)

/-- Whether two numbers have the same value. -/
def agrees (x y : Binary64) : Bool := !x.isNaN && !y.isNaN && (x == y || (x.isZero && y.isZero))

theorem agrees_comm (x y : Binary64) : x.agrees y = y.agrees x := by
  unfold agrees
  rw [Bool.and_comm (!x.isNaN), Bool.and_comm x.isZero, BEq.comm]

theorem agrees_self (x : Binary64) : x.agrees x = !x.isNaN := by
  simp [agrees]

end Binary64

end CircuitMapping
