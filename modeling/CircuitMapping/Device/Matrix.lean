/-
  CircuitMapping.Device.Matrix — the distances of all pairs of nodes in one flat table.

  The nodes of a device are numbered in ascending order, and of `n` nodes the distance from number `i` to number `j`
  stands at place `i * n + j`. Qubits are found by their numbers (`place?`), since they need not be contiguous.
-/
import CircuitMapping.Device.Distance

namespace CircuitMapping

structure DistanceMatrix where
  nodes : List Nat
  /-- The number of each node. -/
  index : Std.TreeMap Nat Nat
  /-- One row after the other; `none` for nodes in different components. -/
  table : Array (Option Nat)

namespace DistanceMatrix

/-- Numbers the entries of a list; an entry that comes again keeps its first number. -/
def numbers (nodes : List Nat) : Std.TreeMap Nat Nat := nodes.zipIdx.foldl (fun m q => m.insertIfNew q.1 q.2) ∅

def ofTable (nodes : List Nat) (table : Array (Option Nat)) : DistanceMatrix := ⟨nodes, numbers nodes, table⟩

/-- The number of nodes. -/
def size (m : DistanceMatrix) : Nat := m.nodes.length

/-- Where the distance of two nodes stands; `none` when one is not a node. -/
def place? (m : DistanceMatrix) (a b : Nat) : Option Nat := do
  let i ← m.index[a]?
  let j ← m.index[b]?
  return i * m.nodes.length + j

/-- The distance of two nodes; `none` when one is not a node. -/
def lookup? (m : DistanceMatrix) (a b : Nat) : Option (Option Nat) := (m.place? a b).map fun k => m.table[k]!

end DistanceMatrix

/-- The distances of all pairs of nodes, from one search for each node. -/
def Device.allPairs (d : Device) : DistanceMatrix :=
  let l := d.links
  .ofTable d.nodes (d.nodes.flatMap fun a =>
    let found := l.distancesFrom d.nodes.length a
    d.nodes.map fun b => found[b]?).toArray

end CircuitMapping
