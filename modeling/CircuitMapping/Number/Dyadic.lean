/-
  CircuitMapping.Number.Dyadic — exact binary magnitudes, and how they are rounded to whole numbers.

  `scaled` gives an exact multiple of a magnitude as a fraction, and three roundings of a fraction to a whole number
  are defined: down, to the nearest with halves up, to the nearest with halves to even. Proved: the first two are the
  floor of the value and of the value plus a half (`floor_spec`, `nearest_spec`), and the third is never more than
  half a unit away (`roundEven_spec`).
-/

namespace CircuitMapping

/-- The magnitude `mantissa * 2 ^ exponent`. -/
structure Dyadic where
  mantissa : Nat
  exponent : Int
  deriving DecidableEq, Repr

namespace Dyadic

/-- The numerator of `k` times the magnitude; `den` is its denominator. -/
def scaled (k : Nat) (v : Dyadic) : Nat := (k * v.mantissa) <<< v.exponent.toNat

/-- The denominator that goes with `scaled`. -/
def den (v : Dyadic) : Nat := 1 <<< (-v.exponent).toNat

theorem den_pos (v : Dyadic) : 0 < v.den := by
  unfold den
  rw [Nat.one_shiftLeft]
  exact Nat.two_pow_pos _

/-- The whole part. -/
def floor (v : Dyadic) : Nat := v.scaled 1 / v.den

/-- The nearest whole number, halves upwards. -/
def nearest (v : Dyadic) : Nat := (2 * v.scaled 1 + v.den) / (2 * v.den)

/-- The whole number nearest to `num / den`, halves to the even neighbour. -/
def roundEven (num den : Nat) : Nat :=
  let q := num / den
  let r := num % den
  if 2 * r < den then q else if den < 2 * r then q + 1 else if q % 2 = 0 then q else q + 1

theorem floor_spec (v : Dyadic) : v.floor * v.den ≤ v.scaled 1 ∧ v.scaled 1 < (v.floor + 1) * v.den := by
  unfold floor
  refine ⟨Nat.div_mul_le_self _ _, ?_⟩
  rw [Nat.mul_comm]
  exact Nat.lt_mul_div_succ _ v.den_pos

theorem nearest_spec (v : Dyadic) :
    2 * v.nearest * v.den ≤ 2 * v.scaled 1 + v.den ∧ 2 * v.scaled 1 + v.den < 2 * (v.nearest + 1) * v.den := by
  have hp : 0 < 2 * v.den := Nat.mul_pos (by decide) v.den_pos
  unfold nearest
  refine ⟨?_, ?_⟩
  · have := Nat.div_mul_le_self (2 * v.scaled 1 + v.den) (2 * v.den)
    rwa [← Nat.mul_assoc, Nat.mul_comm _ 2] at this
  · have := Nat.lt_mul_div_succ (2 * v.scaled 1 + v.den) hp
    rwa [Nat.mul_right_comm] at this

theorem roundEven_spec (num : Nat) {den : Nat} (h : 0 < den) :
    2 * num ≤ 2 * roundEven num den * den + den ∧ 2 * roundEven num den * den ≤ 2 * num + den := by
  have e := Nat.div_add_mod num den
  have l := Nat.mod_lt num h
  have up : 2 * (num / den + 1) * den = 2 * (den * (num / den)) + 2 * den := by
    rw [Nat.mul_assoc, Nat.add_mul, Nat.one_mul, Nat.mul_comm (num / den), Nat.mul_add]
  have dn : 2 * (num / den) * den = 2 * (den * (num / den)) := by
    rw [Nat.mul_assoc, Nat.mul_comm (num / den)]
  unfold roundEven
  dsimp only
  split
  · rw [dn]; omega
  · split
    · rw [up]; omega
    · split
      · rw [dn]; omega
      · rw [up]; omega

end Dyadic

end CircuitMapping
