/-
  CircuitMapping.Pipeline.Passes — the passes: placing, routing and timing, each reporting under its name.

  A pass takes the journal that it reports into, if there is one, and returns its outcome with the journal after it.
  Placing records the circuit moved to its layout; routing the routed circuit with its layouts, the number of SWAPs
  and the depth; timing the circuit timed and the makespan.
-/
import CircuitMapping.Journal.Report
import CircuitMapping.Placement.Sabre
import CircuitMapping.Routing.Pinned
import CircuitMapping.Timing.Scheduler

namespace CircuitMapping.Pass

/-- The record of a circuit moved to a layout that it then keeps. -/
def placed (name : String) (c : Circuit) (d : Device) (l : Layout) : Except Error Journal.Record := do
  let start ← Circuit.empty (← Routed.registerSize c d l)
  let moved ← c.gates.foldlM (fun out g => do out.add (← l.place g)) start
  return ⟨name, moved, some l, some l⟩

def routed (name : String) (r : Routed) : Report :=
  ⟨⟨name, r.circuit, some r.initial, some r.final⟩, [("swap_count", r.swaps), ("routed_depth", r.routedDepth)]⟩

/-- Places logical qubits in order on the lowest nodes. -/
def placeLowest (c : Circuit) (d : Device) (journal : Option Journal) : Except Error Layout × Option Journal :=
  Report.run (Placement.lowest c d) (fun l => return ⟨← placed "TrivialLayoutPass" c d l, []⟩) journal

/-- Places logical qubits by search. -/
def placeSabre (o : Sabre.Options) (c : Circuit) (d : Device) (journal : Option Journal) :
    Except Error Layout × Option Journal :=
  let outcome := Report.run (Sabre.assign o c d)
    (fun r => do
      let record ← placed "SabreLayoutPass" c d r.layout
      return ⟨record, r.swaps.toList.map fun (n : Nat) => ("layout_simulated_swaps", (n : Int))⟩) journal
  (outcome.1.map (·.layout), outcome.2)

/-- Places logical qubits as requested. -/
def placeRequested (request : Request) (c : Circuit) (d : Device) (journal : Option Journal) :
    Except Error Layout × Option Journal :=
  Report.run (request.layout c d) (fun l => return ⟨← placed "CustomLayoutPass" c d l, []⟩) journal

/-- Routes along shortest paths. -/
def route (o : Routing.Options) (initial : Option Layout) (c : Circuit) (d : Device) (journal : Option Journal) :
    Except Error Routed × Option Journal :=
  Report.run (Routing.route o c d initial) (fun r => return routed "ShortestPathRouter" r) journal

/-- Routes on a requested layout that every gate leaves as it found it. -/
def routePinned (o : Routing.Options) (request : Request) (c : Circuit) (d : Device) (journal : Option Journal) :
    Except Error Routed × Option Journal :=
  Report.run (Routing.routePinned o request c d) (fun r => return routed "CustomLayoutPass" r) journal

/-- Times a circuit. -/
def schedule (s : Scheduler .words) (c : Circuit) (journal : Option Journal) : Except Error Schedule × Option Journal :=
  Report.run (s.schedule c)
    (fun t => return ⟨⟨"TimingScheduler", c, none, none⟩, [("makespan", t.makespan)]⟩) journal

end CircuitMapping.Pass
