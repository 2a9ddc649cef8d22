/-
  CircuitMapping.Placement.Requested — a layout asked for qubit by qubit.

  A request gives logical qubits their physical ones; keys are kept ascending and a later entry replaces an earlier
  one. It is accepted when its keys are exactly the logical qubits of the circuit, its values are distinct, and they
  are nodes of the device. Otherwise the first of these that fails is reported with all qubits that offend.
-/
import CircuitMapping.Circuit.Basic
import CircuitMapping.Layout.Basic

namespace CircuitMapping

/-- Logical qubits with the physical ones requested for them, ascending. -/
abbrev Request := List (Nat × Nat)

namespace Request

def ofEntries (entries : List (Nat × Nat)) : Request := entries.foldl (fun r e => Ascending.put e.1 e.2 r) []

def keys (r : Request) : List Nat := List.map (·.1) r

def values (r : Request) : List Nat := List.map (·.2) r

/-- The logical qubits of a register of `width` qubits that have no entry. -/
def missing (r : Request) (width : Nat) : List Nat := (List.range width).filter fun l => decide (l ∉ r.keys)

/-- The keys that are not logical qubits of a register of `width` qubits. -/
def extra (r : Request) (width : Nat) : List Nat := r.keys.filter fun l => decide (width ≤ l)

/-- The physical qubits that are not nodes of the device, ascending. -/
def unknown (r : Request) (d : Device) : List Nat :=
  Ascending.ofList (r.values.filter fun p => decide (p ∉ d.nodes))

/-- The layout requested, for a circuit on a device. -/
def layout (r : Request) (c : Circuit) (d : Device) : Except Error Layout := do
  if d.isEmpty then throw (.configuration .noNodes)
  let missing := r.missing c.width
  let extra := r.extra c.width
  if !missing.isEmpty || !extra.isEmpty then throw (.placement (.requestKeys missing extra))
  let repeated := Layout.repeated r.values
  if !repeated.isEmpty then throw (.placement (.requestRepeats repeated))
  let unknown := r.unknown d
  if !unknown.isEmpty then throw (.placement (.requestUnknown unknown))
  Layout.ofList r.values

end Request

end CircuitMapping
