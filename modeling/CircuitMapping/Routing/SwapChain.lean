/-
  CircuitMapping.Routing.SwapChain — moving qubits by SWAPs while a circuit is being routed.

  A `Transit` is what routing carries along: where the qubits are, what is left of the budget, and the circuit put
  out so far. A SWAP is counted, put out and applied to the layout, in this order; one that fails at any of these
  leaves what came before it in place, so the three parts stay consistent. A chain along a path brings the qubit at
  its end next to its start.
-/
import CircuitMapping.Circuit.Basic
import CircuitMapping.Layout.Basic
import CircuitMapping.Routing.Budget

namespace CircuitMapping

structure Transit where
  layout : Layout
  budget : Budget
  out : Circuit
  deriving DecidableEq, Repr

namespace Transit

/-- One SWAP on behalf of a gate, and the error if it fails. -/
def swap (t : Transit) (g : Gate) (a b : Nat) : Transit × Option Error :=
  let counted := { t with budget := t.budget.spend }
  if counted.budget.isExceeded then (counted, some (.swapBudget counted.budget.limit counted.budget.used g.text))
  else match Gate.swap a b >>= t.out.add with
    | .error e => (counted, some e)
    | .ok out => ({ counted with layout := t.layout.swap a b, out }, none)

/-- SWAPs one after the other, up to the first that fails. -/
def swapAll (t : Transit) (g : Gate) : List (Nat × Nat) → Transit × Option Error
  | [] => (t, none)
  | (a, b) :: rest =>
    match t.swap g a b with
    | (t, some e) => (t, some e)
    | (t, none) => t.swapAll g rest

/-- The neighbouring pairs of a list. -/
def pairs (xs : List Nat) : List (Nat × Nat) := xs.zip xs.tail

/-- The SWAPs that bring the last qubit of a path to its second place, the last first. -/
def chain (path : List Nat) : List (Nat × Nat) := (pairs path.tail).reverse

/-- Walks the qubit at the end of a path next to its start. -/
def walk (t : Transit) (g : Gate) (path : List Nat) : Transit × Except Error (List (Nat × Nat)) :=
  match t.swapAll g (chain path) with
  | (t, some e) => (t, .error e)
  | (t, none) => (t, .ok (chain path))

/-- Puts out a gate on the physical qubits where its logical ones are. -/
def emit (t : Transit) (g : Gate) : Except Error Transit := do
  let out ← t.out.add (← t.layout.place g)
  return { t with out }

end Transit

end CircuitMapping
