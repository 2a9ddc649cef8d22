/-
  CircuitMapping.Error — everything that can go wrong, by cause, and how each cause reads.

  Misuse of a constructor (`ArgumentError`) and an index out of its range (`RangeError`) read as they are. The other
  errors are failures of mapping a circuit to a device; they have a kind, and their text starts with its name. A name
  that an error quotes may hold any characters, but the text of an error ends before the first null character.
-/
import CircuitMapping.Gate.Operation
import CircuitMapping.Number.SixDecimals

namespace CircuitMapping

/-- Indices in text: `[a, b, c]`. -/
def indexList (values : List Nat) : String := "[" ++ ", ".intercalate (values.map toString) ++ "]"

/-- A value that its constructor refuses. -/
inductive ArgumentError where
  | unknownOperation (name : String)
  | noQubits (op : Operation)
  | qubitCount (op : Operation) (expected got : Nat)
  | repeatedQubit (op : Operation) (q : Nat)
  | paramCount (op : Operation) (expected got : Nat)
  | waitDuration (d : Binary64)
  | sameQubits (op : Operation)
  | retarget (op : Operation) (old new : Nat)
  | emptyCircuit
  | emptyDependencies
  deriving DecidableEq, Repr

/-- An index that is not in its range. -/
inductive RangeError where
  | circuitQubit (op : Operation) (q : Nat) (width : Nat)
  | dependenciesQubit (op : Operation) (q : Nat) (width : Nat)
  | gateIndex (i size : Nat)
  | nodeId (i : Nat)
  | notANode (q : Nat)
  | logicalQubit (l size : Nat)
  deriving DecidableEq, Repr

/-- A device, layout or option that does not fit. -/
inductive ConfigurationError where
  | selfLoop (a b : Nat)
  | unknownEndpoint (a b : Nat)
  | noNodes
  | emptyLine
  | shortRing
  | emptyGrid
  | noLeaves
  | centerOutside (center leaves : Nat)
  | lowestLayout (width nodes : Nat)
  | routedWidth (width nodes : Nat)
  | placedWidth (width nodes : Nat)
  | layoutSize (entries width : Nat)
  | swapFactor (factor : Binary64)
  | negativeDuration (name : String) (t : Int)
  | negativeDelay
  | clock (t : Int)
  | noAttempts
  | unknownMethod (name : String)
  | unknownPolicy (name : String)
  deriving DecidableEq, Repr

/-- A placement of logical on physical qubits that is refused, with the offending qubits, ascending. -/
inductive PlacementError where
  | layoutRepeats (physical : List Nat)
  | layoutUnknown (physical : List Nat)
  | requestKeys (missing extra : List Nat)
  | requestRepeats (physical : List Nat)
  | requestUnknown (physical : List Nat)
  deriving DecidableEq, Repr

/-- A gate that cannot be routed or timed. -/
inductive UnsupportedError where
  | routing (op : Operation) (arity : Nat)
  | timing (op : Operation) (arity : Nat) (gate : String)
  deriving DecidableEq, Repr

inductive Error where
  | argument (e : ArgumentError)
  | range (e : RangeError)
  | configuration (e : ConfigurationError)
  | placement (e : PlacementError)
  | unsupported (e : UnsupportedError)
  /-- The physical qubits `a` and `b` are in different components of the device. -/
  | noPath (a b : Nat)
  /-- One SWAP more than the budget of `limit` was needed for a gate. -/
  | swapBudget (limit needed : Nat) (gate : String)
  /-- The physical qubits of a gate are not coupled after its SWAPs. -/
  | stillApart (a b : Nat)
  deriving DecidableEq, Repr

/-- The kinds of failure of mapping a circuit to a device. -/
inductive ErrorKind where
  | configuration
  | unsupportedOperation
  | routingInfeasible
  | resourceExhausted
  deriving DecidableEq, Repr

def ErrorKind.name : ErrorKind → String
  | configuration => "configuration error"
  | unsupportedOperation => "unsupported operation"
  | routingInfeasible => "routing infeasible"
  | resourceExhausted => "resource exhausted"

/-! ## Texts -/

def ArgumentError.message : ArgumentError → String
  | unknownOperation name => "Unknown gate name '" ++ name ++ "'"
  | noQubits op => "Gate " ++ op.name ++ " requires at least 1 qubit"
  | qubitCount op expected got =>
    "Gate " ++ op.name ++ " requires " ++ toString expected ++ " qubit(s), got " ++ toString got
  | repeatedQubit op q => "Gate " ++ op.name ++ " references qubit " ++ toString q ++ " more than once"
  | paramCount op expected got =>
    "Gate " ++ op.name ++ " requires " ++ toString expected ++ " parameter(s), got " ++ toString got
  | waitDuration d => "Wait duration must be a finite non-negative time, got " ++ SixDecimals.text d
  | sameQubits .swap => "SWAP requires two different qubits"
  | sameQubits op => op.name ++ " control and target must be different qubits"
  | retarget op old new =>
    "Cannot retarget " ++ op.name ++ " from " ++ toString old ++ " to " ++ toString new ++ " qubit(s)"
  | emptyCircuit => "Circuit must have at least 1 qubit"
  | emptyDependencies => "DAG must have at least 1 qubit"

def RangeError.message : RangeError → String
  | circuitQubit op q width =>
    "Gate " ++ op.name ++ " references qubit " ++ toString q ++ " but circuit only has " ++ toString width ++ " qubits"
  | dependenciesQubit op q width =>
    "Gate " ++ op.name ++ " references qubit " ++ toString q ++ " but DAG only has " ++ toString width ++ " qubits"
  | gateIndex i size => "Gate index " ++ toString i ++ " out of range [0, " ++ toString size ++ ")"
  | nodeId i => "Node with ID " ++ toString i ++ " not found"
  | notANode q => "Physical qubit " ++ toString q ++ " is not a coupling graph node"
  | logicalQubit l size => "Logical qubit " ++ toString l ++ " out of range [0, " ++ toString size ++ ")"

def ConfigurationError.message : ConfigurationError → String
  | selfLoop a b => "coupling graph edge (" ++ toString a ++ ", " ++ toString b ++ ") is a self loop"
  | unknownEndpoint a b =>
    "coupling graph edge (" ++ toString a ++ ", " ++ toString b ++ ") references a qubit that is not a node"
  | noNodes => "coupling graph has no nodes"
  | emptyLine => "linear topology requires at least 1 qubit"
  | shortRing => "ring topology requires at least 3 qubits"
  | emptyGrid => "grid dimensions must be positive"
  | noLeaves => "star topology requires at least 1 leaf"
  | centerOutside center leaves => "star center " ++ toString center ++ " is outside [0, " ++ toString leaves ++ "]"
  | lowestLayout width nodes =>
    "circuit needs " ++ toString width ++ " qubits but the coupling graph has " ++ toString nodes ++ " nodes"
  | routedWidth width nodes =>
    "circuit has " ++ toString width ++ " qubits but the coupling graph only has " ++ toString nodes ++ " nodes"
  | placedWidth width nodes =>
    "coupling graph has " ++ toString nodes ++ " nodes but the circuit needs " ++ toString width ++ " qubits"
  | layoutSize entries width =>
    "initial layout has " ++ toString entries ++ " entries but the circuit has " ++ toString width ++ " qubits"
  | swapFactor factor => "max_swaps_factor must be a non-negative number, got " ++ SixDecimals.text factor
  | negativeDuration name t => "duration of " ++ name ++ " must be non-negative, got " ++ toString t
  | negativeDelay => "scheduler delays must be non-negative"
  | clock t => "minimum_clock_time must be at least 1, got " ++ toString t
  | noAttempts => "routing_iterations must be at least 1"
  | unknownMethod name => "unknown layout method \"" ++ name ++ "\" (expected trivial, sabre or custom)"
  | unknownPolicy name => "unknown scheduling policy \"" ++ name ++ "\" (expected asap or alap)"

def PlacementError.message : PlacementError → String
  | layoutRepeats physical => "layout assigns physical qubits " ++ indexList physical ++ " more than once"
  | layoutUnknown physical =>
    "layout uses physical qubits " ++ indexList physical ++ " that are not in the coupling graph"
  | requestKeys missing extra =>
    let parts := (if missing.isEmpty then [] else ["missing logical qubits " ++ indexList missing])
      ++ (if extra.isEmpty then [] else ["extraneous logical keys " ++ indexList extra])
    "mapping must assign every logical qubit of the circuit exactly once; " ++ "; ".intercalate parts
  | requestRepeats physical => "mapping is not injective; duplicated physical qubits " ++ indexList physical
  | requestUnknown physical =>
    "mapping refers to physical qubits not in the coupling graph: " ++ indexList physical

def UnsupportedError.message : UnsupportedError → String
  | routing op arity =>
    "gate " ++ op.name ++ " acts on " ++ toString arity ++ " qubits; only 1- and 2-qubit gates can be routed"
  | timing _ _ gate => "unsupported operation for timing: no duration configured for " ++ gate

namespace Error

/-- The kind of a mapping failure; misuse and ranges have none. -/
def kind? : Error → Option ErrorKind
  | argument _ | range _ | stillApart _ _ => none
  | configuration _ | placement _ => some .configuration
  | unsupported _ => some .unsupportedOperation
  | noPath _ _ => some .routingInfeasible
  | swapBudget _ _ _ => some .resourceExhausted

/-- The text of the cause alone. -/
def detail : Error → String
  | argument e => e.message
  | range e => e.message
  | configuration e => e.message
  | placement e => e.message
  | unsupported e => e.message
  | noPath a b => "no path between physical qubits " ++ toString a ++ " and " ++ toString b
  | swapBudget limit needed gate =>
    "swap budget exceeded while routing " ++ gate ++ " (budget " ++ toString limit ++ ", needed at least "
      ++ toString needed ++ ")"
  | stillApart a b =>
    "qubits " ++ toString a ++ " and " ++ toString b
      ++ " are still not adjacent after inserting SWAPs (internal error)"

/-- The whole text, which ends before the first null character. -/
def message (e : Error) : String :=
  let text := match e.kind? with
    | some k => k.name ++ ": " ++ e.detail
    | none => e.detail
  String.ofList (text.toList.takeWhile fun c => c != '\x00')

end Error

end CircuitMapping
