/-
  CircuitMapping.Routing.ShortestPath — routing by SWAP chains along shortest paths.

  Gates are taken in program order. When an interaction acts on qubits that are not coupled, the second is walked
  along a shortest path next to the first, and stays there for the rest of the circuit. Every gate is put out on the
  physical qubits where its logical ones then are. Equally short paths are chosen between by a source of draws.
-/
import CircuitMapping.Device.Path
import CircuitMapping.Random.Twister
import CircuitMapping.Routing.Routed
import CircuitMapping.Routing.SwapChain

namespace CircuitMapping

structure Routing.Options where
  /-- Seeds the choice between equally short paths. -/
  seed : UInt64 := 0
  /-- The SWAPs allowed per gate. -/
  swapFactor : Binary64 := .ofFloat 64
  deriving DecidableEq, Repr

namespace Routing

variable {σ : Type} [Source σ]

/-- Brings the qubits of an interaction together, and tells the SWAPs that this took. -/
def approach (d : Device) (g : Gate) (t : Transit) (s : σ) : Except Error (Transit × List (Nat × Nat) × σ) :=
  match g.qubits with
  | [a, b] => do
    let p ← t.layout.physical a
    let q ← t.layout.physical b
    if d.adjacent p q then return (t, [], s)
    let (path, s) ← d.shortestPath p q s
    match t.walk g path with
    | (_, .error e) => throw e
    | (t, .ok swaps) => return (t, swaps, s)
  | _ => .ok (t, [], s)

/-- Routes one gate. -/
def step (d : Device) (st : Transit × σ) (g : Gate) : Except Error (Transit × σ) := do
  let kind ← g.kind
  let (t, _, s) ← if kind.needsAdjacency then approach d g st.1 st.2 else pure (st.1, [], st.2)
  return (← t.emit g, s)

/-- Refuses a circuit or a first layout that does not fit the device. -/
def checkInputs (c : Circuit) (d : Device) (initial : Option Layout) : Except Error Unit := do
  if d.isEmpty then throw (.configuration .noNodes)
  if d.nodes.length < c.width then throw (.configuration (.routedWidth c.width d.nodes.length))
  match initial with
  | none => return ()
  | some l =>
    if l.size ≠ c.width then throw (.configuration (.layoutSize l.size c.width))
    l.checkOn d

/-- Routes a circuit from a first layout, the lowest nodes when none is given, with draws from `s`. -/
def routeWith (swapFactor : Binary64) (s : σ) (c : Circuit) (d : Device) (initial : Option Layout) :
    Except Error Routed := do
  checkInputs c d initial
  let budget ← Budget.ofFactor swapFactor c.size
  let start ← match initial with
    | some l => pure l
    | none => Layout.lowest c.width d
  let out ← Circuit.empty (← Routed.registerSize c d start)
  let (t, _) ← c.gates.foldlM (step d) (⟨start, budget, out⟩, s)
  return ⟨t.out, start, t.layout, t.budget.used, c.depth, t.out.depth⟩

def route (o : Options) (c : Circuit) (d : Device) (initial : Option Layout) : Except Error Routed :=
  routeWith o.swapFactor (Twister.ofSeed o.seed) c d initial

end Routing

end CircuitMapping
