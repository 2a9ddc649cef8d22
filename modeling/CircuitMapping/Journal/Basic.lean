/-
  CircuitMapping.Journal.Basic — what passes leave behind: circuits with their layouts, and named numbers.

  Records and metrics are only ever appended. Queries answer with the newest entry of a name.
-/
import CircuitMapping.Circuit.Basic
import CircuitMapping.Layout.Basic

namespace CircuitMapping

/-- The circuit that a pass produced, with the layouts before and after it, if the pass has any. -/
structure Journal.Record where
  pass : String
  circuit : Circuit
  initial : Option Layout
  final : Option Layout
  deriving DecidableEq, Repr

structure Journal where
  records : List Journal.Record
  metrics : List (String × Int)
  deriving DecidableEq, Repr

namespace Journal

def empty : Journal := ⟨[], []⟩

def isEmpty (j : Journal) : Bool := j.records.isEmpty && j.metrics.isEmpty

def record (j : Journal) (r : Record) : Journal := { j with records := j.records ++ [r] }

def measure (j : Journal) (key : String) (value : Int) : Journal := { j with metrics := j.metrics ++ [(key, value)] }

/-- The newest record of a pass. -/
def latest (j : Journal) (pass : String) : Option Record := j.records.reverse.find? fun r => r.pass == pass

/-- The newest value of a metric. -/
def metric (j : Journal) (key : String) : Option Int :=
  (j.metrics.reverse.find? fun m => m.1 == key).map (·.2)

/-- All values of a metric, oldest first. -/
def history (j : Journal) (key : String) : List Int := (j.metrics.filter fun m => m.1 == key).map (·.2)

/-- The final layout of the newest record that has one. -/
def finalLayout (j : Journal) : Option Layout := j.records.reverse.findSome? (·.final)

def Record.text (r : Record) : String :=
  r.pass ++ ": " ++ toString r.circuit.size ++ " gates on " ++ toString r.circuit.width ++ " qubits"
    ++ (match r.final with
      | some l => ", final layout " ++ l.text
      | none => "")

def text (j : Journal) : String :=
  "TranspilationContext(" ++ toString j.records.length ++ " records, " ++ toString j.metrics.length ++ " metrics):\n"
    ++ String.join (j.records.map fun r => "  " ++ r.text ++ "\n")
    ++ String.join (j.metrics.map fun m => "  " ++ m.1 ++ " = " ++ toString m.2 ++ "\n")

end Journal

end CircuitMapping
