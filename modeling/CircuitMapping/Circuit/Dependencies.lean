/-
  CircuitMapping.Circuit.Dependencies — which gates have to wait for which.

  A node stands for a gate and knows the latest earlier gate on each of its qubits, each once. Nodes have the ids 0,
  1, 2, … in program order, so the ids of predecessors are smaller. A node's level is 0 without predecessors and
  one more than the highest level among them otherwise; `layers` groups nodes by level, ids ascending in each.
-/
import CircuitMapping.Circuit.Basic

namespace CircuitMapping

/-- A gate with the ids of the gates that it follows directly. -/
structure Dependencies.Node where
  id : Nat
  gate : Gate
  predecessors : List Nat
  deriving DecidableEq, Repr

structure Dependencies where
  width : Nat
  nodes : List Dependencies.Node
  deriving DecidableEq, Repr

namespace Dependencies

def empty (width : Nat) : Except Error Dependencies :=
  if width = 0 then .error (.argument .emptyDependencies) else .ok ⟨width, []⟩

/-- The latest node on a qubit. -/
def latestOn (nodes : List Node) (q : Nat) : Option Nat :=
  nodes.foldl (fun latest n => if q ∈ n.gate.qubits then some n.id else latest) none

/-- Adds an id to a list of ids, once. -/
def link (ids : List Nat) (id : Nat) : List Nat := if id ∈ ids then ids else ids ++ [id]

/-- The nodes that a gate on these qubits follows directly. -/
def predecessorsOf (nodes : List Node) (qs : List Nat) : List Nat :=
  (qs.filterMap (latestOn nodes)).foldl link []

/-- Appends a gate as a node. -/
def append (d : Dependencies) (g : Gate) : Dependencies :=
  { d with nodes := d.nodes ++ [⟨d.nodes.length, g, predecessorsOf d.nodes g.qubits⟩] }

/-- Appends a gate; the first of its qubits outside the register is refused. -/
def add (d : Dependencies) (g : Gate) : Except Error Dependencies :=
  match g.qubits.find? fun q => decide (d.width ≤ q) with
  | some q => .error (.range (.dependenciesQubit g.op q d.width))
  | none => .ok (d.append g)

/-- The dependencies of a circuit: its gate `i` is node `i`. -/
def ofCircuit (c : Circuit) : Dependencies := c.gates.foldl append ⟨c.width, []⟩

def node (d : Dependencies) (id : Nat) : Except Error Node :=
  match d.nodes[id]? with
  | some n => .ok n
  | none => .error (.range (.nodeId id))

/-- The level of a node whose predecessors have the given levels. -/
def levelAfter (levels : List Nat) (n : Node) : Nat :=
  n.predecessors.foldl (fun l p => max l (levels.getD p 0 + 1)) 0

/-- The level of each node. -/
def levels (d : Dependencies) : List Nat := d.nodes.foldl (fun ls n => ls ++ [levelAfter ls n]) []

/-- The number of levels in use. -/
def height (d : Dependencies) : Nat := d.levels.foldl (fun h l => max h (l + 1)) 0

/-- The nodes of each level. -/
def layers (d : Dependencies) : List (List Node) :=
  let leveled := d.nodes.zip d.levels
  (List.range d.height).map fun l => (leveled.filter fun p => p.2 == l).map (·.1)

end Dependencies

end CircuitMapping
