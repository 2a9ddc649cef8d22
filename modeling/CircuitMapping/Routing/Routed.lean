/-
  CircuitMapping.Routing.Routed — the outcome of routing: a circuit on physical qubits, and where qubits start and end.
-/
import CircuitMapping.Circuit.Basic
import CircuitMapping.Layout.Basic
import CircuitMapping.Number.Word

namespace CircuitMapping

structure Routed where
  circuit : Circuit
  /-- The layout before the first gate. -/
  initial : Layout
  /-- The layout after the last gate. -/
  final : Layout
  /-- The number of SWAPs inserted. -/
  swaps : Nat
  /-- The depth of the logical circuit. -/
  logicalDepth : Nat
  /-- The depth of the routed circuit. -/
  routedDepth : Nat
  deriving DecidableEq, Repr

namespace Routed

def depthOverhead (r : Routed) : Nat := r.routedDepth - r.logicalDepth

/-- A SWAP counts as three CNOTs. -/
def gateOverhead (r : Routed) : Nat := 3 * r.swaps

def text (r : Routed) : String :=
  "RoutingResult:\n"
    ++ "  SWAPs inserted: " ++ toString r.swaps ++ "\n"
    ++ "  Original depth: " ++ toString r.logicalDepth ++ "\n"
    ++ "  Final depth: " ++ toString r.routedDepth ++ "\n"
    ++ "  Depth overhead: " ++ toString r.depthOverhead ++ "\n"
    ++ "  Gate overhead: " ++ toString r.gateOverhead ++ "\n"
    ++ "  Initial layout: " ++ r.initial.text ++ "\n"
    ++ "  Final layout: " ++ r.final.text

/-- The size of a register that has every qubit of a device and of a layout, and at least the logical ones. -/
def registerSize (c : Circuit) (d : Device) (l : Layout) : Except Error Nat := do
  let last ← d.maxNode
  return max (max (Word.succ last) (Word.succ l.maxPhysical)) c.width

end Routed

end CircuitMapping
