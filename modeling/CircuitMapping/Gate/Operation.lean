/-
  CircuitMapping.Gate.Operation — the operations a gate can perform.

  Each operation has a name, a number of qubits (a barrier spans any positive number) and a number of real
  parameters. Names tell operations apart, so looking a name up inverts naming (`ofName?_name`).
-/

namespace CircuitMapping

inductive Operation where
  | h | x | y | z | s | sdg | t | tdg
  | rx | ry | rz | u3 | drag
  | measure | reset | wait
  | cnot | cz | swap
  | barrier
  | ccx
  deriving DecidableEq, Repr

namespace Operation

def name : Operation → String
  | h => "H"
  | x => "X"
  | y => "Y"
  | z => "Z"
  | s => "S"
  | sdg => "Sdg"
  | t => "T"
  | tdg => "Tdg"
  | rx => "Rx"
  | ry => "Ry"
  | rz => "Rz"
  | u3 => "U3"
  | drag => "Drag"
  | measure => "Measure"
  | reset => "Reset"
  | wait => "Wait"
  | cnot => "CNOT"
  | cz => "CZ"
  | swap => "SWAP"
  | barrier => "Barrier"
  | ccx => "CCX"

/-- All operations, in the order in which they are numbered. -/
def all : List Operation :=
  [h, x, y, z, s, sdg, t, tdg, rx, ry, rz, u3, drag, measure, reset, wait, cnot, cz, swap, barrier, ccx]

/-- The operation's place in `all`. -/
def ordinal (op : Operation) : Nat := all.idxOf op

def ofName? (text : String) : Option Operation := all.find? fun op => op.name == text

/-- How many qubits the operation acts on; `none` for any positive number. -/
def arity? : Operation → Option Nat
  | cnot | cz | swap => some 2
  | ccx => some 3
  | barrier => none
  | _ => some 1

/-- How many real parameters the operation takes. -/
def paramCount : Operation → Nat
  | rx | ry | rz | wait => 1
  | drag => 2
  | u3 => 3
  | _ => 0

/-- Operations whose time is fixed by what they are, so that no table of durations is asked. -/
def isStructural : Operation → Bool
  | wait | barrier => true
  | _ => false

theorem mem_all (op : Operation) : op ∈ all := by cases op <;> decide

theorem ofName?_name (op : Operation) : ofName? op.name = some op := by cases op <;> decide

end Operation

end CircuitMapping
