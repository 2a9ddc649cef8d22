/-
  CircuitMapping.Layout.Tables — a layout kept in two tables.

  One table has the physical qubit of every logical one, the other the occupant of every physical one, so that both can
  be looked up at once. They are filled one logical qubit after the other; a physical qubit that has an occupant keeps
  it and is reported as repeated. A SWAP takes the occupants of two physical qubits out of the second table and enters
  each of them on the other side in both (`Tables.swap`). Two such layouts are compared by their first tables alone.

  Nothing in the type makes the tables agree with each other: filling them and every SWAP has to keep what a `Layout`
  computes.
-/
import CircuitMapping.Layout.Basic

namespace CircuitMapping.Layout

/-- The physical qubit of every logical one, and the occupant of every physical one. -/
structure Tables where
  places : List Nat
  occupants : Nat → Option Nat

namespace Tables

/-- Takes the occupant of a physical qubit out of the second table. -/
def clear (t : Tables) (p : Nat) : Tables := { t with occupants := fun q => if q = p then none else t.occupants q }

/-- Enters an occupant in both tables; one that the second has already stays there. -/
def enter (t : Tables) (p : Nat) : Option Nat → Tables
  | none => t
  | some i => ⟨t.places.set i p, fun q => if q = p then (t.occupants p).or (some i) else t.occupants q⟩

/-- A SWAP of two physical qubits. -/
def swap (t : Tables) (a b : Nat) : Tables :=
  (((t.clear a).clear b).enter b (t.occupants a)).enter a (t.occupants b)

/-- SWAPs one after the other. -/
def swapAll (t : Tables) (swaps : List (Nat × Nat)) : Tables := swaps.foldl (fun t s => t.swap s.1 s.2) t

/-- Puts a logical qubit on a physical one in the table of occupants; one that is occupied is added to the repeated
    ones instead. -/
def seat (s : (Nat → Option Nat) × List Nat) (e : Nat × Nat) : (Nat → Option Nat) × List Nat :=
  match s.1 e.1 with
  | none => (fun q => if q = e.1 then some e.2 else s.1 q, s.2)
  | some _ => (s.1, s.2 ++ [e.1])

/-- The tables of a layout from the physical qubit of each logical one. -/
def ofList (ps : List Nat) : Except Error Tables :=
  let seated := ps.zipIdx.foldl seat (fun _ => none, [])
  if seated.2.isEmpty then .ok ⟨ps, seated.1⟩ else .error (.placement (.layoutRepeats (Ascending.ofList seated.2)))

def size (t : Tables) : Nat := t.places.length

/-- The physical qubit of a logical one. -/
def physical (t : Tables) (i : Nat) : Except Error Nat :=
  match t.places[i]? with
  | some p => .ok p
  | none => .error (.range (.logicalQubit i t.size))

/-- The same physical qubits; the occupants are not compared. -/
def same (t u : Tables) : Bool := t.places == u.places

end Tables

/-- The tables of a layout. -/
def tables (l : Layout) : Tables := ⟨l.placement, l.logical⟩

/-- SWAPs one after the other. -/
def swapAll (l : Layout) (swaps : List (Nat × Nat)) : Layout := swaps.foldl (fun l s => l.swap s.1 s.2) l

end CircuitMapping.Layout
