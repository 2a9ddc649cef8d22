/-
  CircuitMapping.Number.SixDecimals — real numbers in text: six decimals, never an exponent.

  The exact binary value is rounded to a millionth, a tie going to the even neighbour. The sign bit is always shown,
  so zero can read `-0.000000`. Infinities read `inf` and `-inf`, and what is no number reads `nan` or `-nan`.
-/
import CircuitMapping.Number.Binary64

namespace CircuitMapping.SixDecimals

/-- The value in millionths. -/
def millionths (v : Dyadic) : Nat := Dyadic.roundEven (v.scaled 1000000) v.den

/-- Six digits, with leading zeros. -/
def sixDigits (n : Nat) : String := String.ofList (List.leftpad 6 '0' (Nat.toDigits 10 n))

def magnitude (x : Binary64) : String :=
  if x.isNaN then "nan"
  else if x.isInfinite then "inf"
  else
    let n := millionths x.magnitude
    toString (n / 1000000) ++ "." ++ sixDigits (n % 1000000)

def text (x : Binary64) : String := (if x.isNegative then "-" else "") ++ magnitude x

end CircuitMapping.SixDecimals
