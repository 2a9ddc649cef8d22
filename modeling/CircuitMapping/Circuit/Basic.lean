/-
  CircuitMapping.Circuit.Basic — circuits: a register of qubits and gates in program order.

  Every gate of a circuit acts inside its register, which has at least one qubit. A gate gets an id when it is
  added: the number of gates already there. `depth` is the length of the longest chain of gates linked by shared
  qubits, read off a level per qubit. `reversed` runs the gates backwards and numbers them anew.
-/
import CircuitMapping.Ascending
import CircuitMapping.Gate.Basic

namespace CircuitMapping

/-- A gate of a circuit with the id that it got. -/
structure Circuit.Entry where
  id : Nat
  gate : Gate
  deriving DecidableEq, Repr

structure Circuit where
  width : Nat
  entries : List Circuit.Entry
  width_pos : 0 < width
  in_range : ∀ e ∈ entries, ∀ q ∈ e.gate.qubits, q < width
  deriving DecidableEq, Repr

namespace Circuit

def empty (width : Nat) : Except Error Circuit :=
  if h : 0 < width then .ok ⟨width, [], h, by simp⟩ else .error (.argument .emptyCircuit)

/-- The gates in program order. -/
def gates (c : Circuit) : List Gate := c.entries.map (·.gate)

def size (c : Circuit) : Nat := c.entries.length

/-- Appends a gate; the first of its qubits outside the register is refused. -/
def add (c : Circuit) (g : Gate) : Except Error Circuit :=
  match h : g.qubits.find? fun q => decide (c.width ≤ q) with
  | some q => .error (.range (.circuitQubit g.op q c.width))
  | none => .ok { c with
      entries := c.entries ++ [⟨c.entries.length, g⟩]
      in_range := fun e he q hq => by
        rcases List.mem_append.mp he with he | he
        · exact c.in_range e he q hq
        · rw [List.mem_singleton.mp he] at hq
          simpa using List.find?_eq_none.mp h q hq }

/-- The circuit with these gates added in order. -/
def addAll (c : Circuit) (gs : List Gate) : Except Error Circuit := gs.foldlM add c

/-- A register with these gates. -/
def ofGates (width : Nat) (gs : List Gate) : Except Error Circuit := do (← empty width).addAll gs

def entry (c : Circuit) (i : Nat) : Except Error Entry :=
  match c.entries[i]? with
  | some e => .ok e
  | none => .error (.range (.gateIndex i c.size))

/-- The register without its gates. -/
def clear (c : Circuit) : Circuit := ⟨c.width, [], c.width_pos, by simp⟩

/-- Gates with the ids that they get when they are added in order to an empty register. -/
def number (gs : List Gate) : List Entry := gs.zipIdx.map fun p => ⟨p.2, p.1⟩

theorem gate_mem_of_mem_number {gs : List Gate} {e : Entry} (h : e ∈ number gs) : e.gate ∈ gs := by
  obtain ⟨⟨g, i⟩, hp, rfl⟩ := List.mem_map.mp h
  exact (List.mem_zipIdx hp).2.2 ▸ List.getElem_mem _

/-- The same gates in reverse program order. -/
def reversed (c : Circuit) : Circuit where
  width := c.width
  entries := number c.gates.reverse
  width_pos := c.width_pos
  in_range e he q hq := by
    have hg := List.mem_reverse.mp (gate_mem_of_mem_number he)
    obtain ⟨e', he', hge⟩ := List.mem_map.mp hg
    exact c.in_range e' he' q (hge ▸ hq)

/-! ## Depth -/

/-- The highest level among some qubits. -/
def top (levels : Nat → Nat) (qs : List Nat) : Nat := qs.foldl (fun m q => max m (levels q)) 0

/-- Puts some qubits on one level. -/
def lift (levels : Nat → Nat) (qs : List Nat) (l : Nat) : Nat → Nat := fun q => if q ∈ qs then l else levels q

/-- The highest level that some gates reach when their qubits start on the given levels. -/
def depthFrom (levels : Nat → Nat) : List Gate → Nat
  | [] => 0
  | g :: gs =>
    let l := top levels g.qubits + 1
    max l (depthFrom (lift levels g.qubits l) gs)

def depth (c : Circuit) : Nat := depthFrom (fun _ => 0) c.gates

/-! ## Counts and texts -/

def countOf (c : Circuit) (op : Operation) : Nat := c.gates.countP fun g => g.op == op

/-- Interactions of two qubits: SWAPs included, barriers not. -/
def countInteractions (c : Circuit) : Nat := c.gates.countP fun g => g.qubits.length == 2 && g.op != .barrier

def hasMultiQubitGates (c : Circuit) : Bool := c.gates.any fun g => decide (2 ≤ g.qubits.length)

/-- The qubits that some gate touches, ascending. -/
def activeQubits (c : Circuit) : List Nat := Ascending.ofList (c.gates.flatMap (·.qubits))

def sameGates : List Gate → List Gate → Bool
  | [], [] => true
  | g :: gs, h :: hs => g.same h && sameGates gs hs
  | _, _ => false

/-- Registers of one size with the same gates; ids do not count. -/
def same (c d : Circuit) : Bool := c.width == d.width && sameGates c.gates d.gates

def text (c : Circuit) : String :=
  "Circuit(" ++ toString c.width ++ " qubits, " ++ toString c.size ++ " gates, depth " ++ toString c.depth ++ "):\n"
    ++ String.join (c.gates.map fun g => "  " ++ g.text ++ "\n")

end Circuit

end CircuitMapping
