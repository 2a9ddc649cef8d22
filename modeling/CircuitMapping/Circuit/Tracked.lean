/-
  CircuitMapping.Circuit.Tracked — dependencies that keep track of the latest gate on every qubit.

  The latest node of every qubit stands in a table beside the nodes, so that a gate can be linked without a search. Its
  qubits are visited in order: the new node is linked to the latest one of the qubit, unless that was done before, and
  then is the latest one itself. Nothing in the type makes the table agree with the nodes: every call has to keep what
  `Dependencies` computes from the nodes alone. A call that is refused leaves everything as it was.
-/
import CircuitMapping.Circuit.Dependencies

namespace CircuitMapping.Dependencies

/-- The nodes, and the id of the latest one on every qubit. -/
structure Tracked where
  width : Nat
  nodes : List Node
  latest : Nat → Option Nat

namespace Tracked

def empty (width : Nat) : Except Error Tracked :=
  if width = 0 then .error (.argument .emptyDependencies) else .ok ⟨width, [], fun _ => none⟩

/-- Visits a qubit of the node `id`: the ids that the node is linked to and the table, before and after. -/
def visit (id : Nat) (s : List Nat × (Nat → Option Nat)) (q : Nat) : List Nat × (Nat → Option Nat) :=
  (match s.2 q with
    | some p => link s.1 p
    | none => s.1,
   fun r => if r = q then some id else s.2 r)

/-- Appends a gate as a node and returns its id; the first of its qubits outside the register is refused. -/
def add (t : Tracked) (g : Gate) : Tracked × Except Error Nat :=
  match g.qubits.find? fun q => decide (t.width ≤ q) with
  | some q => (t, .error (.range (.dependenciesQubit g.op q t.width)))
  | none =>
    let id := t.nodes.length
    let visited := g.qubits.foldl (visit id) ([], t.latest)
    (⟨t.width, t.nodes ++ [⟨id, g, visited.1⟩], visited.2⟩, .ok id)

/-- What calls in a row leave, whichever of them are refused. -/
def addAll (t : Tracked) (gs : List Gate) : Tracked := gs.foldl (fun t g => (t.add g).1) t

def gates (t : Tracked) : List Gate := t.nodes.map (·.gate)

end Tracked

/-- The dependencies with the table of the latest nodes. -/
def tracked (d : Dependencies) : Tracked := ⟨d.width, d.nodes, latestOn d.nodes⟩

end CircuitMapping.Dependencies
