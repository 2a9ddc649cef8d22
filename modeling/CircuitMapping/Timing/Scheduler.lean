/-
  CircuitMapping.Timing.Scheduler — start and finish times for the gates of a circuit.

  Gates run layer by layer. One starts no earlier than everything of the layers before has finished and its qubits
  are free, and a delay later: the readout delay before a measurement, the gate delay before any other. A wait
  occupies its qubit for its own time and a barrier for none, both without delay; other gates take the duration of
  the table, rounded up to the clock.

  As late as possible is as soon as possible on the reversed circuit, reflected in time. There the delay follows its
  gate, so that it is in front again after the reflection. The axis is the later of the two ends.

  Times are 64-bit words, and a scheduler that is run takes every sum and difference of them as one, without a check
  that it fits. A scheduler can also take them as integers, which says what the times mean.
-/
import CircuitMapping.Circuit.Dependencies
import CircuitMapping.Number.Signed
import CircuitMapping.Timing.Durations
import CircuitMapping.Timing.Schedule

namespace CircuitMapping

namespace Timing

inductive Policy where
  | asSoonAsPossible
  | asLateAsPossible
  deriving DecidableEq, Repr

namespace Policy

def name : Policy → String
  | asSoonAsPossible => "as_soon_as_possible"
  | asLateAsPossible => "as_late_as_possible"

/-- A policy by its full or its short name. -/
def ofName (text : String) : Except Error Policy :=
  if text = "asap" ∨ text = "as_soon_as_possible" then .ok asSoonAsPossible
  else if text = "alap" ∨ text = "as_late_as_possible" then .ok asLateAsPossible
  else .error (.configuration (.unknownPolicy text))

end Policy

structure Options where
  policy : Policy := .asSoonAsPossible
  /-- The time before every timed gate but a measurement. -/
  gateDelay : Int64 := 0
  /-- The time before a measurement. -/
  readoutDelay : Int64 := 0
  /-- Durations are rounded up to a multiple of this. -/
  clock : Int64 := 1
  deriving DecidableEq, Repr

end Timing

/-- Options that have been checked, with a table of durations, and how times are added. -/
structure Scheduler (a : Arithmetic := .exact) where
  durations : Durations
  policy : Timing.Policy
  gateDelay : Nat
  readoutDelay : Nat
  clock : Nat
  clock_pos : 0 < clock
  deriving Repr

namespace Scheduler

open Timing

variable {a : Arithmetic}

def make (durations : Durations) (o : Options) : Except Error (Scheduler a) :=
  if o.gateDelay < 0 ∨ o.readoutDelay < 0 then .error (.configuration .negativeDelay)
  else if h : 1 ≤ o.clock then
    have hclock : 1 ≤ o.clock.toInt := Int64.le_iff_toInt_le.mp h
    .ok ⟨durations, o.policy, o.gateDelay.toInt.toNat, o.readoutDelay.toInt.toNat, o.clock.toInt.toNat, by omega⟩
  else .error (.configuration (.clock o.clock.toInt))

/-! ## The cost of a gate -/

/-- The least multiple of the clock from `t` on. -/
def roundUp (clock t : Nat) : Nat := if t % clock = 0 then t else t + clock - t % clock

/-- When a sum on the way to the multiple is held, what is held of the multiple is the same. -/
theorem hold_roundUp (a : Arithmetic) {clock t : Nat} (h : t % clock ≠ 0) :
    a.hold (roundUp clock t) = a.hold (a.hold (t + clock) - (t % clock : Nat)) := by
  have hle : t % clock ≤ t + clock := Nat.le_trans (Nat.mod_le t clock) (Nat.le_add_right t clock)
  rw [roundUp, if_neg h, Int.sub_eq_add_neg, Arithmetic.hold_hold_add, ← Int.sub_eq_add_neg, Int.natCast_sub hle,
    Int.natCast_add]

/-- The time of a wait, to the nearest unit, halves upwards. -/
def waitTime (g : Gate) : Nat := (g.params.head?.map fun d => d.magnitude.nearest).getD 0

/-- How long a gate occupies its qubits. -/
def durationOf (s : Scheduler a) (g : Gate) : Except Error Nat :=
  match g.op with
  | .wait => .ok (waitTime g)
  | .barrier => .ok 0
  | _ =>
    match s.durations.lookup g with
    | some t => .ok (roundUp s.clock t)
    | none => .error (.unsupported (.timing g.op g.qubits.length g.text))

/-- How long a gate waits before it starts. -/
def delayOf (s : Scheduler a) (g : Gate) : Nat :=
  match g.op with
  | .wait | .barrier => 0
  | .measure => s.readoutDelay
  | _ => s.gateDelay

/-! ## As soon as possible -/

/-- What has been timed so far. -/
structure Progress where
  /-- When each qubit is free again. -/
  free : Nat → Int
  /-- When everything timed so far has ended. -/
  ends : Int
  timed : List TimedGate

def Progress.start : Progress := ⟨fun _ => 0, 0, []⟩

/-- Times a gate of a layer that starts at `base`. With `trailing` the delay follows the gate. -/
def timeNode (s : Scheduler a) (trailing : Bool) (layer : Nat) (base : Int) (p : Progress) (n : Dependencies.Node) :
    Except Error Progress := do
  let duration : Int := a.hold (← s.durationOf n.gate)
  let delay : Nat := s.delayOf n.gate
  let ready := n.gate.qubits.foldl (fun r q => max r (p.free q)) base
  let start : Int := if trailing then ready else a.hold (ready + delay)
  let finish : Int := a.hold (start + duration)
  let release : Int := if trailing then a.hold (finish + delay) else finish
  return {
    free := fun q => if q ∈ n.gate.qubits then release else p.free q
    ends := max p.ends release
    timed := p.timed ++ [⟨n.gate, n.id, layer, start, finish⟩] }

def timeLayer (s : Scheduler a) (trailing : Bool) (p : Progress) (layer : List Dependencies.Node × Nat) :
    Except Error Progress := layer.1.foldlM (s.timeNode trailing layer.2 p.ends) p

/-- The gates of a circuit, timed layer by layer. -/
def timeForward (s : Scheduler a) (trailing : Bool) (c : Circuit) : Except Error (List TimedGate) := do
  let p ← (Dependencies.ofCircuit c).layers.zipIdx.foldlM (s.timeLayer trailing) .start
  return p.timed

/-! ## As late as possible -/

/-- The end of all gates and of the delays that follow them. -/
def endOf (delay : Gate → Nat) (ts : List TimedGate) (a : Arithmetic := .exact) : Int :=
  ts.foldl (fun m t => max m (a.hold (t.finish + delay t.gate))) 0

/-- A timed gate of the reversed circuit as one of a circuit of `size` gates in `layers` layers. -/
def reflect (axis : Int) (size layers : Nat) (t : TimedGate) : TimedGate :=
  { t with
    index := size - 1 - t.index
    layer := layers - 1 - t.layer
    start := axis - t.finish
    finish := axis - t.start }

def timeBackward (s : Scheduler a) (c : Circuit) : Except Error (List TimedGate) := do
  let forward ← s.timeForward false c
  let backward ← s.timeForward true c.reversed
  let axis := max (endOf (fun _ => 0) forward a) (endOf s.delayOf backward a)
  let layers := backward.foldl (fun m t => max m (t.layer + 1)) 0
  return backward.map fun t => (reflect axis c.size layers t).held a

def schedule (s : Scheduler a) (c : Circuit) : Except Error Schedule := do
  let timed ← match s.policy with
    | .asSoonAsPossible => s.timeForward false c
    | .asLateAsPossible => s.timeBackward c
  return Schedule.ofTimed c.width timed

end Scheduler

end CircuitMapping
