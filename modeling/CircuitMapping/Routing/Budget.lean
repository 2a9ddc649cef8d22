/-
  CircuitMapping.Routing.Budget — how many SWAPs a routing may insert.

  The limit is the whole part of a factor times the number of gates, the product rounded as a double-precision
  number; a product of `2 ^ 64` or more fits no count, and the limit is then 0. A SWAP is counted before it is
  allowed, so the first one refused is counted too.
-/
import CircuitMapping.Error
import CircuitMapping.Number.Word

namespace CircuitMapping

structure Budget where
  limit : Nat
  used : Nat
  deriving DecidableEq, Repr

namespace Budget

/-- The whole part of a magnitude, when it fits into a word. -/
def wholePart (v : Dyadic) : Nat := if v.floor < Word.count then v.floor else 0

/-- The budget of `factor` SWAPs per gate. -/
def ofFactor (factor : Binary64) (gates : Nat) : Except Error Budget :=
  if factor.isAmount then .ok ⟨wholePart (factor.times gates).magnitude, 0⟩
  else .error (.configuration (.swapFactor factor))

/-- One SWAP more. -/
def spend (b : Budget) : Budget := { b with used := b.used + 1 }

def isExceeded (b : Budget) : Bool := decide (b.limit < b.used)

end Budget

end CircuitMapping
