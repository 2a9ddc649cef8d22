/-
  CircuitMapping.Placement.Movable — layouts that a simulation can work on.

  A simulation looks up where the logical qubits are, applies SWAPs, and tries SWAPs out to see what they would cost. A
  `Layout` is not changed by a SWAP that is only tried: what it leads to is looked at on a layout of its own. Tables are
  changed in place, so the SWAP is applied to them, they are looked at, and it is applied once more to undo it.
-/
import CircuitMapping.Layout.Tables

namespace CircuitMapping

class Movable (L : Type) where
  /-- The physical qubit of each logical one. -/
  places : L → List Nat
  /-- A SWAP of two physical qubits. -/
  swap : L → Nat → Nat → L
  /-- What is seen after the SWAP on an edge, and what is left when it has been tried out. -/
  probe : (L → Float) → L → Edge → Float × L

namespace Movable

instance : Movable Layout where
  places l := l.placement
  swap := Layout.swap
  probe look l e := (look (l.swap e.lo e.hi), l)

instance : Movable Layout.Tables where
  places t := t.places
  swap := Layout.Tables.swap
  probe look t e :=
    let swapped := t.swap e.lo e.hi
    (look swapped, swapped.swap e.lo e.hi)

@[simp] theorem places_layout (l : Layout) : places l = l.placement := rfl

@[simp] theorem swap_layout (l : Layout) (a b : Nat) : swap l a b = l.swap a b := rfl

@[simp] theorem probe_layout (look : Layout → Float) (l : Layout) (e : Edge) :
    probe look l e = (look (l.swap e.lo e.hi), l) := rfl

@[simp] theorem places_tables (t : Layout.Tables) : places t = t.places := rfl

@[simp] theorem swap_tables (t : Layout.Tables) (a b : Nat) : swap t a b = t.swap a b := rfl

@[simp] theorem probe_tables (look : Layout.Tables → Float) (t : Layout.Tables) (e : Edge) :
    probe look t e = (look (t.swap e.lo e.hi), (t.swap e.lo e.hi).swap e.lo e.hi) := rfl

end Movable

end CircuitMapping
