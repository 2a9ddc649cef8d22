/-
  CircuitMapping.Placement.Sabre — the SABRE search for a first layout.

  A trial starts from a random placement and simulates the interactions of the circuit forwards, then backwards, with
  SWAPs chosen by cost; the layout reached is suited to the start of the circuit. It is scored by the SWAPs that a
  further simulation from it needs, then by the summed distance of all interactions; the best trial wins, the
  earliest of equals. Only layouts are simulated, no circuit is put out.

  A simulation keeps a wire for every logical qubit: the interactions on it that are still to be executed. An
  interaction is in front when it comes first on the wires of both its qubits. Those in front whose qubits are coupled
  are executed; when there are none left, one SWAP beside a qubit in front is applied. Its cost weighs distances in
  front by a penalty on qubits swapped lately, which decays, and adds the distances of the next interactions. Costs
  within `1e-12` are equal, and one of the equally cheap SWAPs is drawn. To find what a SWAP costs it is tried out; what
  that does to the layout depends on its type (`Movable`), and a `Layout` stays as it was (`tryAll_layout`).
-/
import CircuitMapping.Device.Distance
import CircuitMapping.Placement.Lowest
import CircuitMapping.Placement.Movable
import CircuitMapping.Random.Shuffle
import CircuitMapping.Random.Twister

namespace CircuitMapping

structure Sabre.Options where
  /-- The number of random placements tried, at least one. -/
  trials : Nat := 8
  seed : UInt64 := 0
  /-- How many interactions are looked at beyond the front. -/
  lookAhead : Nat := 10
  /-- The weight of their distances. -/
  beta : Float := 0.5
  /-- The penalty on the qubits of a SWAP. -/
  decayDelta : Float := 0.001
  /-- What all penalties are multiplied by before each SWAP. -/
  decayLambda : Float := 0.99
  deriving DecidableEq, Repr

/-- What a search knows of the device. -/
structure Sabre.Search where
  device : Device
  links : Links
  table : DistanceTable
  options : Sabre.Options

/-- The state of a simulation that works on a layout of type `L`. -/
structure Sabre.State (σ : Type) (L : Type := Layout) where
  /-- The positions of the interactions still to be executed, on each logical qubit. -/
  wires : Array (List Nat)
  layout : L
  /-- The penalty of each node. -/
  decay : Std.TreeMap Nat Float
  /-- The SWAPs applied. -/
  swaps : Nat
  /-- The interactions not executed yet. -/
  remaining : Nat
  source : σ

namespace Sabre

variable {σ L : Type} [Source σ] [Movable L]

/-! ## Interactions -/

/-- The logical qubits that the circuit brings together, in program order. -/
def interactions (c : Circuit) : Except Error (List (Nat × Nat)) :=
  c.gates.foldlM (fun ps g => do
    let kind ← g.kind
    match kind.needsAdjacency, g.qubits with
    | true, [a, b] => return ps ++ [(a, b)]
    | _, _ => return ps) []

/-- The positions of the interactions on a qubit. -/
def positionsOn (pairs : List (Nat × Nat)) (q : Nat) : List Nat :=
  (pairs.zipIdx.filter fun e => e.1.1 == q || e.1.2 == q).map (·.2)

/-- The wires of a register of `width` qubits before anything is executed. -/
def wiresOf (width : Nat) (pairs : List (Nat × Nat)) : Array (List Nat) :=
  ((List.range width).map (positionsOn pairs)).toArray

/-- The interaction that comes first on the wire of a qubit. -/
def next? (wires : Array (List Nat)) (q : Nat) : Option Nat := wires[q]?.bind List.head?

/-- Whether an interaction comes first on both its wires. -/
def isReady (pairs : Array (Nat × Nat)) (wires : Array (List Nat)) (g : Nat) : Bool :=
  match pairs[g]? with
  | some (a, b) => next? wires a == some g && next? wires b == some g
  | none => false

/-- The interactions in front, ascending. -/
def front (pairs : Array (Nat × Nat)) (wires : Array (List Nat)) : List Nat :=
  Ascending.ofList ((wires.toList.filterMap List.head?).filter (isReady pairs wires))

/-- Adds interactions that are not in front to those looked at, up to a limit. -/
def lookAt (front : List Nat) (limit : Nat) : List Nat → List Nat → List Nat
  | seen, [] => seen
  | seen, g :: gs =>
    if limit ≤ seen.length then seen
    else lookAt front limit (if g ∈ front then seen else Ascending.insert g seen) gs

/-- The next interactions beyond those in front, wire by wire, up to a limit. -/
def ahead (wires : Array (List Nat)) (front : List Nat) (limit : Nat) : List Nat :=
  wires.toList.foldl (fun seen wire => lookAt front limit seen wire.tail) []

/-! ## Distances and costs -/

/-- The distance of the qubits of an interaction, placed on these nodes; `none` for different components. -/
def Search.gap (s : Search) (places : Array Nat) (pair : Nat × Nat) : Option Nat := do
  let p ← places[pair.1]?
  let q ← places[pair.2]?
  let d ← s.table.lookup? p q
  d

/-- What a gap costs. -/
def gapCost : Option Nat → Float
  | some d => Float.ofNat d
  | none => 1e6

/-- The summed cost of some interactions. -/
def Search.total (s : Search) (places : Array Nat) (pairs : List (Nat × Nat)) : Float :=
  pairs.foldl (fun sum pair => sum + gapCost (s.gap places pair)) 0

/-- The interactions in front, each weighted by the penalties of its qubits. -/
def Search.frontCost (s : Search) (places : Array Nat) (decay : Std.TreeMap Nat Float) (pairs : List (Nat × Nat)) :
    Float :=
  pairs.foldl (fun sum pair =>
    let a := decay.getD (places.getD pair.1 0) 0
    let b := decay.getD (places.getD pair.2 0) 0
    sum + gapCost (s.gap places pair) * (1 + a + b)) 0

def Search.cost (s : Search) (l : L) (decay : Std.TreeMap Nat Float) (front ahead : List (Nat × Nat)) : Float :=
  let places := (Movable.places l).toArray
  s.frontCost places decay front + s.options.beta * s.total places ahead

/-- Costs closer than this are equal. -/
def tolerance : Float := 1e-12

/-- Keeps the cheapest edges seen so far. -/
def keepCheapest (cost : Edge → Float) (best : Float × List Edge) (e : Edge) : Float × List Edge :=
  let c := cost e
  if c < best.1 - tolerance then (c, [e])
  else if (c - best.1).abs ≤ tolerance then (best.1, best.2 ++ [e])
  else best

def cheapest (cost : Edge → Float) (edges : List Edge) : List Edge :=
  (edges.foldl (keepCheapest cost) (1 / 0, [])).2

/-- Tries out the SWAP on an edge, and keeps the edge if it is among the cheapest. -/
def tryOut (cost : L → Float) (t : L × Float × List Edge) (e : Edge) : L × Float × List Edge :=
  let probed := Movable.probe cost t.1 e
  (probed.2, keepCheapest (fun _ => probed.1) t.2 e)

/-- Tries out the SWAPs on all edges: what is left of the layout, and the cheapest of the edges. -/
def tryAll (cost : L → Float) (l : L) (edges : List Edge) : L × List Edge :=
  let tried := edges.foldl (tryOut cost) (l, 1 / 0, [])
  (tried.1, tried.2.2)

theorem foldl_tryOut {cost : L → Float} {l : L} {after : Edge → Float}
    (h : ∀ e, Movable.probe cost l e = (after e, l)) (es : List Edge) (best : Float × List Edge) :
    es.foldl (tryOut cost) (l, best) = (l, es.foldl (keepCheapest after) best) := by
  induction es generalizing best with
  | nil => rfl
  | cons e es ih =>
    have hone : tryOut cost (l, best) e = (l, keepCheapest after best e) := by
      unfold tryOut
      rw [h]
      rfl
    rw [List.foldl_cons, List.foldl_cons, hone, ih]

/-- Where trying a SWAP out leaves the layout as it was, the cheapest edges are found one apart from the other. -/
theorem tryAll_eq {cost : L → Float} {l : L} {after : Edge → Float}
    (h : ∀ e, Movable.probe cost l e = (after e, l)) (edges : List Edge) :
    tryAll cost l edges = (l, cheapest after edges) := by
  unfold tryAll cheapest
  rw [foldl_tryOut h]

theorem tryAll_layout (cost : Layout → Float) (l : Layout) (edges : List Edge) :
    tryAll cost l edges = (l, cheapest (fun e => cost (l.swap e.lo e.hi)) edges) :=
  tryAll_eq (Movable.probe_layout cost l) edges

/-! ## Simulation -/

/-- Takes an interaction off its wires. -/
def State.execute (pairs : Array (Nat × Nat)) (st : State σ L) (g : Nat) : State σ L :=
  match pairs[g]? with
  | some (a, b) => { st with
      wires := (st.wires.modify a List.tail).modify b List.tail
      remaining := st.remaining - 1 }
  | none => st

/-- The interactions in front whose qubits are coupled. -/
def Search.executable (s : Search) (pairs : Array (Nat × Nat)) (st : State σ L) : List Nat :=
  let places := (Movable.places st.layout).toArray
  (front pairs st.wires).filter fun g => pairs[g]?.bind (s.gap places) == some 1

/-- Executes what can be executed, in at most as many rounds as the first argument says. -/
def Search.drain (s : Search) (pairs : Array (Nat × Nat)) : Nat → State σ L → State σ L
  | 0, st => st
  | n + 1, st =>
    match s.executable pairs st with
    | [] => st
    | g :: gs => s.drain pairs n ((g :: gs).foldl (State.execute pairs) st)

/-- The edges beside the qubits of some interactions, ascending. -/
def Search.candidates (s : Search) (l : L) (pairs : List (Nat × Nat)) : List Edge :=
  Ascending.ofList (pairs.flatMap fun pair => [pair.1, pair.2].flatMap fun q =>
    match (Movable.places l)[q]? with
    | some p => (s.links.partners p).map (Edge.between p)
    | none => [])

/-- One SWAP of a simulation; none when no edge beside the front has a cost. -/
def Search.move (s : Search) (pairs : Array (Nat × Nat)) (st : State σ L) : Option (State σ L) :=
  let first := front pairs st.wires
  let later := ahead st.wires first s.options.lookAhead
  let inFront := first.filterMap (pairs[·]?)
  let beyond := later.filterMap (pairs[·]?)
  let decay := st.decay.map fun _ x => x * s.options.decayLambda
  let tried := tryAll (fun l => s.cost l decay inFront beyond) st.layout (s.candidates st.layout inFront)
  match tried.2 with
  | [] => none
  | e :: es =>
    let draw := Source.below (es.length + 1) st.source
    let chosen := (e :: es).getD draw.1 e
    some { st with
      layout := Movable.swap tried.1 chosen.lo chosen.hi
      decay := (decay.modify chosen.lo (· + s.options.decayDelta)).modify chosen.hi (· + s.options.decayDelta)
      swaps := st.swaps + 1
      source := draw.2 }

/-- Executes and moves in turn, with at most as many SWAPs as the first argument says. -/
def Search.run (s : Search) (pairs : Array (Nat × Nat)) : Nat → State σ L → State σ L
  | 0, st => s.drain pairs st.remaining st
  | n + 1, st =>
    let st := s.drain pairs st.remaining st
    if st.remaining = 0 then st
    else match s.move pairs st with
      | none => st
      | some st => s.run pairs n st

/-- Simulates the interactions of a register of `width` qubits from a layout. -/
def Search.simulate (s : Search) (width : Nat) (pairs : List (Nat × Nat)) (l : L) (source : σ) : State σ L :=
  s.run pairs.toArray (pairs.length * s.device.nodes.length)
    ⟨wiresOf width pairs, l, .ofList (s.device.nodes.map fun p => (p, (0 : Float))), 0, pairs.length, source⟩

/-! ## Trials -/

/-- How good a layout is: the fewer SWAPs the better, then the nearer. -/
structure Score where
  swaps : Nat
  distance : Float
  deriving DecidableEq, Repr

def Score.isBetter (a b : Score) : Bool :=
  if a.swaps = b.swaps then decide (a.distance < b.distance) else decide (a.swaps < b.swaps)

/-- A layout found, with its score. -/
structure Candidate where
  layout : Layout
  score : Score
  deriving DecidableEq, Repr

/-- One trial for interactions of a register of `width` qubits. -/
def Search.trial (s : Search) (width : Nat) (pairs : List (Nat × Nat)) (source : σ) :
    Except Error (Candidate × σ) := do
  let (nodes, source) := Source.shuffle s.device.nodes source
  let start ← Layout.ofList (nodes.take width)
  let there := s.simulate width pairs start source
  let back := s.simulate width pairs.reverse there.layout there.source
  let probe := s.simulate width pairs back.layout back.source
  return (⟨back.layout, ⟨probe.swaps, s.total back.layout.placement.toArray pairs⟩⟩, probe.source)

/-- The best of a candidate and further trials. -/
def Search.trials (s : Search) (width : Nat) (pairs : List (Nat × Nat)) :
    Nat → Candidate → σ → Except Error Candidate
  | 0, best, _ => .ok best
  | n + 1, best, source => do
    let (next, source) ← s.trial width pairs source
    s.trials width pairs n (if next.score.isBetter best.score then next else best) source

/-- A first layout, with the SWAPs simulated from it when the circuit has interactions. -/
structure Outcome where
  layout : Layout
  swaps : Option Nat
  deriving DecidableEq, Repr

/-- The best layout found with draws from `source`; the lowest nodes when nothing has to be brought together. -/
def assignWith (o : Options) (source : σ) (c : Circuit) (d : Device) : Except Error Outcome := do
  Placement.checkFits c d
  let pairs ← interactions c
  if pairs.isEmpty then
    let layout ← Layout.lowest c.width d
    return ⟨layout, none⟩
  let search : Search := ⟨d, d.links, DistanceTable.ofDevice d, o⟩
  let (first, source) ← search.trial c.width pairs source
  let best ← search.trials c.width pairs (o.trials - 1) first source
  return ⟨best.layout, some best.score.swaps⟩

def assign (o : Options) (c : Circuit) (d : Device) : Except Error Outcome :=
  assignWith o (Twister.ofSeed o.seed) c d

end Sabre

end CircuitMapping
