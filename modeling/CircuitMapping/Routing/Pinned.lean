/-
  CircuitMapping.Routing.Pinned — routing on a requested layout that every gate leaves as it found it.

  An interaction of qubits that are not coupled gets a chain of SWAPs along a shortest path, the gate itself, and the
  same SWAPs in reverse, so every logical qubit is back on its requested place before the next gate. The SWAPs that
  restore the layout count towards the budget.
-/
import CircuitMapping.Placement.Requested
import CircuitMapping.Routing.ShortestPath

namespace CircuitMapping.Routing

variable {σ : Type} [Source σ]

/-- Refuses an interaction whose qubits are not coupled where they are. -/
def checkTogether (d : Device) (g : Gate) (l : Layout) : Except Error Unit :=
  match g.qubits with
  | [a, b] => do
    let p ← l.physical a
    let q ← l.physical b
    if d.adjacent p q then return () else throw (.stillApart p q)
  | _ => .ok ()

/-- Routes one gate and undoes the SWAPs that it took. -/
def pinnedStep (d : Device) (st : Transit × σ) (g : Gate) : Except Error (Transit × σ) := do
  let kind ← g.kind
  if kind.needsAdjacency then
    let (t, swaps, s) ← approach d g st.1 st.2
    checkTogether d g t.layout
    let t ← t.emit g
    match t.swapAll g swaps.reverse with
    | (_, some e) => throw e
    | (t, none) => return (t, s)
  else return (← st.1.emit g, st.2)

/-- Routes a circuit on a requested layout, with draws from `s`. -/
def routePinnedWith (swapFactor : Binary64) (s : σ) (request : Request) (c : Circuit) (d : Device) :
    Except Error Routed := do
  let start ← request.layout c d
  let budget ← Budget.ofFactor swapFactor c.size
  let out ← Circuit.empty (Word.succ (← d.maxNode))
  let (t, _) ← c.gates.foldlM (pinnedStep d) (⟨start, budget, out⟩, s)
  return ⟨t.out, start, t.layout, t.budget.used, c.depth, t.out.depth⟩

def routePinned (o : Options) (request : Request) (c : Circuit) (d : Device) : Except Error Routed :=
  routePinnedWith o.swapFactor (Twister.ofSeed o.seed) request c d

end CircuitMapping.Routing
