/-
  CircuitMapping.Device.Path — shortest paths on a device, chosen among equals by a source of draws.

  A path goes down the distances to its end: each step is one of the coupled qubits that are one nearer, in
  ascending order. With a single candidate nothing is drawn; the source `Lowest` takes the lowest candidate.
-/
import CircuitMapping.Device.Distance
import CircuitMapping.Random.Source

namespace CircuitMapping

namespace Links

variable {σ : Type} [Source σ]

/-- The qubits coupled to `q` at distance `k`. -/
def nearer (l : Links) (found : Distances) (q k : Nat) : List Nat :=
  (l.partners q).filter fun p => found[p]? == some k

/-- The steps from `q`, whose distance is the first argument. -/
def descend (l : Links) (found : Distances) : Nat → Nat → σ → List Nat × σ
  | 0, _, s => ([], s)
  | k + 1, q, s =>
    match l.nearer found q k with
    | [] => ([], s)
    | p :: ps =>
      let choice := Source.pick p ps s
      let rest := descend l found k choice.1 choice.2
      (choice.1 :: rest.1, rest.2)

end Links

/-- A shortest path between two nodes, with both ends. -/
def Device.shortestPath {σ : Type} [Source σ] (d : Device) (a b : Nat) (s : σ) : Except Error (List Nat × σ) := do
  d.requireNode a
  d.requireNode b
  let l := d.links
  let found := l.distancesFrom d.nodes.length b
  match found[a]? with
  | none => throw (.noPath a b)
  | some k =>
    let steps := l.descend found k a s
    return (a :: steps.1, steps.2)

end CircuitMapping
