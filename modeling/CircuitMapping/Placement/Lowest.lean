/-
  CircuitMapping.Placement.Lowest — the simplest first layout: logical qubits in order on the lowest nodes.
-/
import CircuitMapping.Circuit.Basic
import CircuitMapping.Layout.Basic

namespace CircuitMapping.Placement

/-- Refuses a circuit that has more qubits than the device. -/
def checkFits (c : Circuit) (d : Device) : Except Error Unit := do
  if d.isEmpty then throw (.configuration .noNodes)
  if d.nodes.length < c.width then throw (.configuration (.placedWidth c.width d.nodes.length))

def lowest (c : Circuit) (d : Device) : Except Error Layout := do
  checkFits c d
  Layout.lowest c.width d

end CircuitMapping.Placement
