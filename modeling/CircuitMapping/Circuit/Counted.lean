/-
  CircuitMapping.Circuit.Counted — circuits that count the ids they give out, and the calls that work on them.

  The next id stands beside the gates. A gate comes with whatever id it carries, be it that of another circuit, and gets
  the next one instead. `clear` starts the count over, `clone` takes it along, and `reversed` adds the gates anew
  to an empty register. Nothing in the type makes ids and count agree with the positions, or keeps the gates inside the
  register: every call has to keep what a `Circuit` holds in its type. The depth is read off a table with one level for
  every qubit, and a qubit outside it has no depth to tell (`depth?`).

  A program holds many circuits and calls one of them at a time (`Call`); a clone and a reversed circuit are held beside
  the others. The gates that it adds are made from their parts or taken from one of the circuits (`Origin`). A call that
  is refused leaves everything as it was.
-/
import CircuitMapping.Circuit.Basic

namespace CircuitMapping.Circuit

/-- Gates with their ids, and the id of the next gate. -/
structure Counted where
  width : Nat
  entries : List Entry
  next : Nat
  deriving DecidableEq, Repr

namespace Counted

def empty (width : Nat) : Except Error Counted :=
  if width = 0 then .error (.argument .emptyCircuit) else .ok ⟨width, [], 0⟩

def gates (t : Counted) : List Gate := t.entries.map (·.gate)

/-- Appends a gate under the next id; the first of its qubits outside the register is refused. -/
def add (t : Counted) (e : Entry) : Counted × Except Error Unit :=
  match e.gate.qubits.find? fun q => decide (t.width ≤ q) with
  | some q => (t, .error (.range (.circuitQubit e.gate.op q t.width)))
  | none => (⟨t.width, t.entries ++ [{ e with id := t.next }], t.next + 1⟩, .ok ())

/-- Adds gates in order, up to the first one that is refused. -/
def addAll (t : Counted) (es : List Entry) : Except Error Counted :=
  es.foldlM (fun t e => (t.add e).2.map fun _ => (t.add e).1) t

def clear (t : Counted) : Counted := ⟨t.width, [], 0⟩

/-- A circuit of its own with the same gates and the same count. -/
def clone (t : Counted) : Except Error Counted := do
  return { ← empty t.width with entries := t.entries, next := t.next }

/-- A new circuit with the same gates, added in reverse order. -/
def reversed (t : Counted) : Except Error Counted := do (← empty t.width).addAll t.entries.reverse

/-! ## Depth -/

/-- Puts the qubits of a gate one level above the highest of them. Each of them has to have a place in the table. -/
def raise? (levels : List Nat) (g : Gate) : Option (List Nat) := do
  let found ← g.qubits.mapM fun q => levels[q]?
  let l := found.foldl max 0
  return g.qubits.foldl (fun levels q => levels.set q (l + 1)) levels

def depth? (t : Counted) : Option Nat :=
  if t.entries.isEmpty then some 0 else do (← t.gates.foldlM raise? (List.replicate t.width 0)).max?

end Counted

/-- The circuit with the count of its gates. -/
def counted (c : Circuit) : Counted := ⟨c.width, c.entries, c.entries.length⟩

/-! ## Calls -/

/-- The id of a gate that is in no circuit. -/
def noId : Nat := 18446744073709551615

/-- Where a gate comes from: it is made from its parts with some id, or it is the gate at `i` of the circuit at `k`, as
    it is there or on other qubits. -/
inductive Origin where
  | parts (id : Nat) (op : Operation) (qubits : List Nat) (params : List Binary64)
  | taken (k i : Nat)
  | retargeted (k i : Nat) (qubits : List Nat)
  deriving DecidableEq, Repr

/-- The gate that is offered, if there is one with nothing wrong with it. -/
def Origin.entry? (ts : List Counted) : Origin → Option Entry
  | parts id op qubits params => (Gate.make op qubits params).toOption.map (Entry.mk id)
  | taken k i => do (← ts[k]?).entries[i]?
  | retargeted k i qubits => do
    let e ← (← ts[k]?).entries[i]?
    (e.gate.retarget qubits).toOption.map (Entry.mk noId)

/-- A call on one of the circuits that a program holds, by its place, or one that makes a circuit. -/
inductive Call where
  | create (width : Nat)
  | add (k : Nat) (o : Origin)
  | clear (k : Nat)
  | reverse (k : Nat)
  | clone (k : Nat)
  deriving DecidableEq, Repr

/-- The circuit that a call may change. -/
def Call.target? : Call → Option Nat
  | add k _ | clear k => some k
  | _ => none

namespace Counted

/-- Adds a gate to the circuit at `k`, if there is one to add. -/
def addTo (ts : List Counted) (k : Nat) : Option Entry → List Counted
  | some e => ts.modify k fun t => (t.add e).1
  | none => ts

/-- A circuit that could be made is held behind the others. -/
def hold (ts : List Counted) : Except Error Counted → List Counted
  | .ok t => ts ++ [t]
  | .error _ => ts

/-- Holds what is made from the circuit at `k`, if there is one. -/
def holdFrom (ts : List Counted) (k : Nat) (make : Counted → Except Error Counted) : List Counted :=
  match ts[k]? with
  | some t => hold ts (make t)
  | none => ts

def call (ts : List Counted) : Call → List Counted
  | .create width => hold ts (empty width)
  | .add k o => addTo ts k (o.entry? ts)
  | .clear k => ts.modify k clear
  | .reverse k => holdFrom ts k reversed
  | .clone k => holdFrom ts k clone

/-- What calls in a row leave, whichever of them are refused. -/
def callAll (ts : List Counted) (xs : List Call) : List Counted := xs.foldl call ts

end Counted

end CircuitMapping.Circuit
