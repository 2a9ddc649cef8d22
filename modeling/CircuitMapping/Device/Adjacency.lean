/-
  CircuitMapping.Device.Adjacency — the couplings of a device as rows of neighbours, kept while it is built.

  Every node has a row with its neighbours, ascending, and the couplings are counted beside the rows. A coupling is
  entered in the rows of both its ends and counted when it is new in the first of them. Nothing in the type makes the
  rows agree with each other or with the count: every call has to keep what a `Device` holds in its type. The same
  calls build a device (`Device.calls`). A call that is refused leaves everything as it was.

  Proved: what a call leaves in each row (`getElem?_addNode`, `getElem?_enter`).
-/
import CircuitMapping.Device.Links

namespace CircuitMapping

structure Adjacency where
  rows : Std.TreeMap Nat (List Nat)
  /-- The number of couplings. -/
  couplings : Nat

/-- A call that builds a device. -/
inductive Device.Call where
  | node (q : Nat)
  | edge (a b : Nat)
  deriving DecidableEq, Repr

namespace Adjacency

def empty : Adjacency := ⟨∅, 0⟩

def row (t : Adjacency) (q : Nat) : List Nat := t.rows.getD q []

def hasNode (t : Adjacency) (q : Nat) : Bool := t.rows.contains q

def addNode (t : Adjacency) (q : Nat) : Adjacency := { t with rows := t.rows.insertIfNew q [] }

/-- Puts `p` into the row of `q`. -/
def enter (t : Adjacency) (q p : Nat) : Adjacency := { t with rows := t.rows.insert q (Ascending.insert p (t.row q)) }

/-- Couples two distinct nodes. -/
def addEdge (t : Adjacency) (a b : Nat) : Adjacency × Except Error Unit :=
  if a = b then (t, .error (.configuration (.selfLoop a b)))
  else if t.hasNode a ∧ t.hasNode b then
    if b ∈ t.row a then (t, .ok ())
    else ({ (t.enter a b).enter b a with couplings := t.couplings + 1 }, .ok ())
  else (t, .error (.configuration (.unknownEndpoint a b)))

def call (t : Adjacency) : Device.Call → Adjacency × Except Error Unit
  | .node q => (t.addNode q, .ok ())
  | .edge a b => t.addEdge a b

/-- What calls in a row leave, whichever of them are refused. -/
def calls (t : Adjacency) (cs : List Device.Call) : Adjacency := cs.foldl (fun t c => (t.call c).1) t

/-- The rows of these nodes, coupled by these edges in order. -/
def ofEdges (nodes : List Nat) (edges : List (Nat × Nat)) : Except Error Adjacency :=
  edges.foldlM (fun t e => (t.addEdge e.1 e.2).2.map fun _ => (t.addEdge e.1 e.2).1) (nodes.foldl addNode empty)

/-! ## Queries -/

def nodes (t : Adjacency) : List Nat := t.rows.keys

/-- Every coupling from the row of its smaller end. -/
def edges (t : Adjacency) : List Edge := t.rows.toList.flatMap fun r => (r.2.filter fun p => r.1 < p).map (Edge.mk r.1)

def adjacent (t : Adjacency) (a b : Nat) : Bool := (t.row a).contains b

def neighbors (t : Adjacency) (q : Nat) : Except Error (List Nat) :=
  match t.rows[q]? with
  | some ps => .ok ps
  | none => .error (.range (.notANode q))

/-- The rows, for a search to look up. -/
def links (t : Adjacency) : Links := ⟨t.rows⟩

/-! ## Rows after a call -/

theorem row_eq (t : Adjacency) (q : Nat) : t.row q = t.rows[q]?.getD [] := Std.TreeMap.getD_eq_getD_getElem?

theorem hasNode_iff {t : Adjacency} {q : Nat} : t.hasNode q = true ↔ t.rows[q]? ≠ none := by
  rw [hasNode, Std.TreeMap.contains_eq_isSome_getElem?, Option.isSome_iff_ne_none]

theorem getElem?_addNode (t : Adjacency) (q p : Nat) :
    (t.addNode q).rows[p]? = if p = q then some (t.row q) else t.rows[p]? := by
  simp only [addNode, Std.TreeMap.getElem?_insertIfNew, Nat.compare_eq_eq, row_eq, Std.TreeMap.mem_iff_isSome_getElem?]
  by_cases hp : p = q
  · subst hp
    cases t.rows[p]? <;> simp
  · rw [if_neg hp, if_neg fun h => hp h.1.symm]

theorem getElem?_enter (t : Adjacency) (q p r : Nat) :
    (t.enter q p).rows[r]? = if q = r then some (Ascending.insert p (t.row q)) else t.rows[r]? := by
  simp only [enter, Std.TreeMap.getElem?_insert, Nat.compare_eq_eq]

end Adjacency

namespace Device

/-- A call on the device itself. -/
def call (d : Device) : Call → Device × Except Error Unit
  | .node q => (d.addNode q, .ok ())
  | .edge a b =>
    match d.addEdge a b with
    | .ok e => (e, .ok ())
    | .error e => (d, .error e)

def calls (d : Device) (cs : List Call) : Device := cs.foldl (fun d c => (d.call c).1) d

end Device

end CircuitMapping
