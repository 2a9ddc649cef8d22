/-
  CircuitMapping.Timing.Schedule — gates with the times at which they run.

  A schedule lists timed gates by start time, ties by their index in the circuit. Gates of one circuit differ in their
  index, so that this fixes the list; others that agree in both come in the order in which `introsort` leaves them.
-/
import CircuitMapping.Gate.Basic
import CircuitMapping.Number.Signed
import CircuitMapping.Sorting.Introsort

namespace CircuitMapping

/-- A gate that runs from `start` up to `finish`. -/
structure TimedGate where
  gate : Gate
  /-- Its position in the circuit. -/
  index : Nat
  /-- The layer that it was timed in. -/
  layer : Nat
  start : Int
  finish : Int
  deriving DecidableEq, Repr

namespace TimedGate

/-- How long a gate runs, as a word. -/
def duration (t : TimedGate) : Int := Arithmetic.words.hold (t.finish - t.start)

/-- A gate with what is held of its times. -/
def held (a : Arithmetic) (t : TimedGate) : TimedGate := { t with start := a.hold t.start, finish := a.hold t.finish }

@[simp] theorem held_exact (t : TimedGate) : t.held .exact = t := rfl

/-- The order of a schedule. -/
def precedes (t u : TimedGate) : Bool := decide (t.start < u.start ∨ (t.start = u.start ∧ t.index < u.index))

theorem precedes_weakOrder : Sorting.WeakOrder precedes where
  asymm h := by
    simp only [precedes, decide_eq_true_eq, decide_eq_false_iff_not] at *
    omega
  trans h h' := by
    simp only [precedes, decide_eq_false_iff_not] at *
    omega

def text (t : TimedGate) : String := "[" ++ toString t.start ++ ", " ++ toString t.finish ++ ") " ++ t.gate.text

end TimedGate

structure Schedule where
  width : Nat
  timed : List TimedGate
  deriving DecidableEq, Repr

namespace Schedule

/-- Timed gates in the order of a schedule. -/
def sort (ts : List TimedGate) : List TimedGate := Sorting.introsort TimedGate.precedes ts

theorem sort_perm (ts : List TimedGate) : (sort ts).Perm ts := Sorting.introsort_perm ts

theorem sort_sorted (ts : List TimedGate) : Sorting.Sorted TimedGate.precedes (sort ts) :=
  Sorting.introsort_sorted TimedGate.precedes_weakOrder ts

def ofTimed (width : Nat) (ts : List TimedGate) : Schedule := ⟨width, sort ts⟩

/-- The latest finish, 0 when there is none later. -/
def makespan (s : Schedule) : Int := s.timed.foldl (fun m t => max m t.finish) 0

/-- The gates on a qubit, in the order of the schedule. -/
def on (s : Schedule) (q : Nat) : List TimedGate := s.timed.filter fun t => t.gate.qubits.contains q

def text (s : Schedule) : String :=
  "Schedule(" ++ toString s.timed.length ++ " operations, makespan " ++ toString s.makespan ++ "):\n"
    ++ String.join (s.timed.map fun t => "  " ++ t.text ++ "\n")

end Schedule

end CircuitMapping
