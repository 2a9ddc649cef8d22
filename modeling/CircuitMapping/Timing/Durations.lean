/-
  CircuitMapping.Timing.Durations — how long operations take.

  An operation has a default duration by its name, kept in ascending order of names, and may have another on one
  exact tuple of qubits. Durations are words that are not negative. Looking up a gate prefers the tuple to the default.
-/
import CircuitMapping.Ascending
import CircuitMapping.Gate.Basic

namespace CircuitMapping

structure Durations where
  defaults : List (String × Nat)
  overrides : List ((String × List Nat) × Nat)
  deriving DecidableEq, Repr

namespace Durations

def empty : Durations := ⟨[], []⟩

def check (name : String) (t : Int64) : Except Error Nat :=
  if t < 0 then .error (.configuration (.negativeDuration name t.toInt)) else .ok t.toInt.toNat

/-- Sets the default duration of an operation. -/
def set (d : Durations) (name : String) (t : Int64) : Except Error Durations := do
  let t ← check name t
  return { d with defaults := Ascending.put name t d.defaults }

/-- Sets the duration of an operation on one tuple of qubits. -/
def setOn (d : Durations) (name : String) (qubits : List Nat) (t : Int64) : Except Error Durations := do
  let t ← check name t
  return { d with overrides := ((name, qubits), t) :: d.overrides.filter fun e => e.1 != (name, qubits) }

def lookup (d : Durations) (g : Gate) : Option Nat :=
  match d.overrides.lookup (g.op.name, g.qubits) with
  | some t => some t
  | none => d.defaults.lookup g.op.name

/-- Whether an operation has a default duration. -/
def contains (d : Durations) (name : String) : Bool := (d.defaults.lookup name).isSome

def size (d : Durations) : Nat := d.defaults.length + d.overrides.length

end Durations

end CircuitMapping
