/-
  CircuitMapping.Gate.Basic — gates: an operation on some qubits with its parameters.

  A `Gate` carries the proof that nothing is wrong with it (`Operation.fault?` finds the first thing that is): the
  number of qubits is the operation's, no qubit comes twice, the number of parameters is the operation's, and a
  wait lasts a finite time from 0 to `2 ^ 62`. `make` builds a gate or reports that first fault.

  `same` compares parameters as numbers, so zeros of either sign agree and a NaN differs from itself.
  `kind` sorts gates by what routing has to do for them and refuses those on three or more qubits.
-/
import CircuitMapping.Error

namespace CircuitMapping

namespace Operation

/-- The first qubit of a list that comes again later. -/
def firstRepeat? : List Nat → Option Nat
  | [] => none
  | q :: qs => if q ∈ qs then some q else firstRepeat? qs

/-- The longest time a wait can last. -/
def longestWait : Nat := 4611686018427387904

/-- The times a wait can last. -/
def isWaitTime (d : Binary64) : Bool := d.isAmount && decide (d.magnitude.scaled 1 ≤ longestWait * d.magnitude.den)

def qubitFault? (op : Operation) (qubits : List Nat) : Option ArgumentError :=
  match op.arity? with
  | none => if qubits.isEmpty then some (.noQubits op) else none
  | some k => if qubits.length = k then none else some (.qubitCount op k qubits.length)

def repeatFault? (op : Operation) (qubits : List Nat) : Option ArgumentError :=
  (firstRepeat? qubits).map (.repeatedQubit op)

def paramFault? (op : Operation) (params : List Binary64) : Option ArgumentError :=
  if params.length = op.paramCount then none else some (.paramCount op op.paramCount params.length)

def waitFault? (op : Operation) (params : List Binary64) : Option ArgumentError :=
  if op = .wait then (params.find? fun d => !isWaitTime d).map .waitDuration else none

/-- The first thing wrong with a gate: its qubits, then its parameters. -/
def fault? (op : Operation) (qubits : List Nat) (params : List Binary64) : Option ArgumentError :=
  (op.qubitFault? qubits).or ((op.repeatFault? qubits).or ((op.paramFault? params).or (op.waitFault? params)))

theorem firstRepeat?_eq_none {qs : List Nat} : firstRepeat? qs = none ↔ qs.Nodup := by
  induction qs with
  | nil => simp [firstRepeat?]
  | cons q qs ih =>
    unfold firstRepeat?
    split
    · rename_i h
      simp [h]
    · rename_i h
      simp [h, ih]

theorem fault?_eq_none {op : Operation} {qs : List Nat} {ps : List Binary64} :
    op.fault? qs ps = none ↔
      op.qubitFault? qs = none ∧ qs.Nodup ∧ op.paramFault? ps = none ∧ op.waitFault? ps = none := by
  simp [fault?, repeatFault?, firstRepeat?_eq_none]

/-- Whether the number of qubits is right depends on that number alone. -/
theorem qubitFault?_of_length {op : Operation} {qs rs : List Nat} (h : rs.length = qs.length)
    (hq : op.qubitFault? qs = none) : op.qubitFault? rs = none := by
  unfold qubitFault? at hq ⊢
  split
  · rename_i hk
    rw [hk] at hq
    cases rs with
    | nil => cases qs with
      | nil => exact hq
      | cons q qs => simp at h
    | cons r rs => rfl
  · rename_i k hk
    rw [hk] at hq
    simpa [h] using hq

end Operation

structure Gate where
  op : Operation
  qubits : List Nat
  params : List Binary64
  valid : op.fault? qubits params = none
  deriving DecidableEq, Repr

namespace Gate

def make (op : Operation) (qubits : List Nat) (params : List Binary64) : Except Error Gate :=
  match h : op.fault? qubits params with
  | none => .ok ⟨op, qubits, params, h⟩
  | some e => .error (.argument e)

/-- An interaction of two qubits, which have to differ. -/
def pair (op : Operation) (a b : Nat) : Except Error Gate :=
  if a = b then .error (.argument (.sameQubits op)) else make op [a, b] []

def swap (a b : Nat) : Except Error Gate := pair .swap a b

def wait (q : Nat) (t : Int) : Except Error Gate := make .wait [q] [.ofFloat (Float.ofInt t)]

/-- The same operation with the same parameters on as many other qubits. -/
def retarget (g : Gate) (qubits : List Nat) : Except Error Gate :=
  if qubits.length = g.qubits.length then make g.op qubits g.params
  else .error (.argument (.retarget g.op g.qubits.length qubits.length))

def isParameterized (g : Gate) : Bool := !g.params.isEmpty

/-- The largest qubit of the gate. -/
def maxQubit (g : Gate) : Nat := g.qubits.foldl max 0

def text (g : Gate) : String :=
  g.op.name
    ++ (if g.params.isEmpty then "" else "(" ++ ", ".intercalate (g.params.map SixDecimals.text) ++ ")")
    ++ " " ++ ", ".intercalate (g.qubits.map fun q => "q[" ++ toString q ++ "]")

/-- Parameter lists that agree as numbers. -/
def sameParams : List Binary64 → List Binary64 → Bool
  | [], [] => true
  | x :: xs, y :: ys => x.agrees y && sameParams xs ys
  | _, _ => false

def same (g h : Gate) : Bool := g.op == h.op && g.qubits == h.qubits && sameParams g.params h.params

/-! ## Validity -/

theorem nodup (g : Gate) : g.qubits.Nodup := (Operation.fault?_eq_none.mp g.valid).2.1

theorem make_valid {op : Operation} {qs : List Nat} {ps : List Binary64} (h : op.fault? qs ps = none) :
    make op qs ps = .ok ⟨op, qs, ps, h⟩ := by
  unfold make
  split
  · rfl
  · rename_i e he
    rw [h] at he
    cases he

theorem fault?_retarget {g : Gate} {qs : List Nat} (hl : qs.length = g.qubits.length) (hd : qs.Nodup) :
    g.op.fault? qs g.params = none := by
  obtain ⟨h1, _, h3, h4⟩ := Operation.fault?_eq_none.mp g.valid
  exact Operation.fault?_eq_none.mpr ⟨Operation.qubitFault?_of_length hl h1, hd, h3, h4⟩

/-- A gate can act on any other qubits, as many and distinct. -/
theorem retarget_eq_ok {g : Gate} {qs : List Nat} (hl : qs.length = g.qubits.length) (hd : qs.Nodup) :
    g.retarget qs = .ok ⟨g.op, qs, g.params, fault?_retarget hl hd⟩ := by
  unfold retarget
  rw [if_pos hl, make_valid (fault?_retarget hl hd)]

/-! ## Kinds -/

/-- What routing has to do for a gate. -/
inductive Kind where
  | singleQubit
  | twoQubit
  | swap
  /-- A barrier on one or two qubits: moved along, never brought together. -/
  | marker
  deriving DecidableEq, Repr

def Kind.name : Kind → String
  | singleQubit => "SingleQubit"
  | twoQubit => "TwoQubit"
  | swap => "Swap"
  | marker => "Marker"

/-- The kinds whose two qubits have to be coupled. -/
def Kind.needsAdjacency : Kind → Bool
  | twoQubit | swap => true
  | _ => false

def kind (g : Gate) : Except Error Kind :=
  if g.op = .barrier ∧ g.qubits.length ≤ 2 then .ok .marker
  else if g.qubits.length = 1 then .ok .singleQubit
  else if g.qubits.length = 2 then .ok (if g.op = .swap then .swap else .twoQubit)
  else .error (.unsupported (.routing g.op g.qubits.length))

end Gate

end CircuitMapping
