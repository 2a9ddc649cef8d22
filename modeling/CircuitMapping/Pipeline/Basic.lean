/-
  CircuitMapping.Pipeline.Basic — a circuit mapped to a device: placed, routed and timed.

  Placing and routing can be attempted several times, each attempt with the next seed and a journal of its own. The
  attempt with the fewest SWAPs is kept, the earliest of equals, and none follows one without SWAPs. Only an attempt
  that runs out of SWAPs is given up for the next; when all do, the last error stands. Any other error ends the
  attempts at once.
-/
import CircuitMapping.Pipeline.Passes

namespace CircuitMapping

namespace Pipeline

/-- How the first layout is chosen. -/
inductive Method where
  /-- Logical qubits in order on the lowest nodes. -/
  | trivial
  /-- The best layout of a search. -/
  | sabre
  /-- A requested layout, which every gate leaves as it found it. -/
  | custom
  deriving DecidableEq, Repr

namespace Method

def name : Method → String
  | trivial => "trivial"
  | sabre => "sabre"
  | custom => "custom"

def ofName (text : String) : Except Error Method :=
  match [trivial, sabre, custom].find? fun m => m.name == text with
  | some m => .ok m
  | none => .error (.configuration (.unknownMethod text))

end Method

structure Options where
  method : Method := .trivial
  /-- The layout of the method `custom`. -/
  request : Request := []
  /-- The search of the method `sabre`; its seed is that of the attempt. -/
  sabre : Sabre.Options := {}
  router : Routing.Options := {}
  /-- The number of attempts; attempt `i` adds `i` to the seed of the router. -/
  attempts : Nat := 1
  timing : Timing.Options := {}
  deriving DecidableEq, Repr

/-- What placing and routing produced, with what they reported. -/
structure RouteOutcome where
  routed : Routed
  journal : Journal
  deriving DecidableEq, Repr

/-- What the whole pipeline produced. -/
structure Outcome where
  routed : Routed
  schedule : Schedule
  journal : Journal
  deriving DecidableEq, Repr

end Pipeline

/-- A device with its durations, and how circuits are mapped to it. -/
structure Pipeline where
  device : Device
  durations : Durations
  options : Pipeline.Options
  attempts_pos : 0 < options.attempts
  deriving DecidableEq, Repr

namespace Pipeline

def make (device : Device) (durations : Durations) (options : Options) : Except Error Pipeline :=
  if h : 0 < options.attempts then .ok ⟨device, durations, options, h⟩ else .error (.configuration .noAttempts)

/-- The outcome of a pass that had a journal to report into. -/
def reported {α : Type} (run : Option Journal → Except Error α × Option Journal) (j : Journal) :
    Except Error (α × Journal) :=
  match run (some j) with
  | (.error e, _) => .error e
  | (.ok a, after) => .ok (a, after.getD j)

/-- One attempt at placing and routing. -/
def attempt (p : Pipeline) (c : Circuit) (seed : UInt64) : Except Error RouteOutcome := do
  let router := { p.options.router with seed }
  match p.options.method with
  | .custom =>
    let (routed, journal) ← reported (Pass.routePinned router p.options.request c p.device) .empty
    return ⟨routed, journal⟩
  | .sabre =>
    let (layout, journal) ← reported (Pass.placeSabre { p.options.sabre with seed } c p.device) .empty
    let (routed, journal) ← reported (Pass.route router (some layout) c p.device) journal
    return ⟨routed, journal⟩
  | .trivial =>
    let (layout, journal) ← reported (Pass.placeLowest c p.device) .empty
    let (routed, journal) ← reported (Pass.route router (some layout) c p.device) journal
    return ⟨routed, journal⟩

/-- What the attempts made so far have led to: the best outcome, or the last refusal. -/
inductive Standing where
  | none
  | refused (e : Error)
  | best (o : RouteOutcome)
  deriving DecidableEq, Repr

/-- The standing after one more outcome. -/
def Standing.offer : Standing → RouteOutcome → Standing
  | .best o, o' => if o'.routed.swaps < o.routed.swaps then .best o' else .best o
  | _, o' => .best o'

/-- The standing after an attempt ran out of SWAPs. -/
def Standing.refuse : Standing → Error → Standing
  | .best o, _ => .best o
  | _, e => .refused e

/-- As many further attempts as the first argument says, the next with seed `seed`. -/
def attempts (p : Pipeline) (c : Circuit) : Nat → UInt64 → Standing → Except Error Standing
  | 0, _, st => .ok st
  | n + 1, seed, st =>
    match p.attempt c seed with
    | .ok o => if o.routed.swaps = 0 then .ok (st.offer o) else p.attempts c n (seed + 1) (st.offer o)
    | .error (.swapBudget limit needed gate) =>
      p.attempts c n (seed + 1) (st.refuse (.swapBudget limit needed gate))
    | .error e => .error e

/-- Places and routes a circuit. -/
def route (p : Pipeline) (c : Circuit) : Except Error RouteOutcome := do
  match ← p.attempts c p.options.attempts p.options.router.seed .none with
  | .best o => return o
  | .refused e => throw e
  | .none => throw (.configuration .noAttempts)

/-- Places, routes and times a circuit. -/
def run (p : Pipeline) (c : Circuit) : Except Error Outcome := do
  let o ← p.route c
  let scheduler : Scheduler .words ← Scheduler.make p.durations p.options.timing
  let (schedule, journal) ← reported (Pass.schedule scheduler o.routed.circuit) o.journal
  return ⟨o.routed, schedule, journal⟩

end Pipeline

end CircuitMapping
