/-
  CircuitMapping.Device.Basic — devices: physical qubits and the pairs of them that are coupled.

  Qubits are arbitrary numbers, not necessarily contiguous. A device holds its qubits (`nodes`) and its couplings
  (`edges`) as ascending lists, each edge with its smaller end first, so two devices with the same qubits and
  couplings are equal. Adding what is there already changes nothing (`addNode_of_mem`, `addEdge_of_adjacent`).
  Proved: adjacency is symmetric and holds between distinct nodes only (`adjacent_comm`, `adjacent_self`,
  `mem_nodes_of_adjacent`), and `partners` lists exactly the adjacent qubits, ascending (`mem_partners`,
  `partners_ascending`).
-/
import CircuitMapping.Ascending
import CircuitMapping.Error

namespace CircuitMapping

/-- A pair of qubits, its smaller end first. -/
structure Edge where
  lo : Nat
  hi : Nat
  deriving DecidableEq, Repr

namespace Edge

/-- The pair of two qubits, in either order. -/
def between (a b : Nat) : Edge := ⟨min a b, max a b⟩

instance : LT Edge := ⟨fun d e => d.lo < e.lo ∨ (d.lo = e.lo ∧ d.hi < e.hi)⟩

theorem lt_def {d e : Edge} : d < e ↔ d.lo < e.lo ∨ (d.lo = e.lo ∧ d.hi < e.hi) := Iff.rfl

instance : DecidableLT Edge := fun d e => decidable_of_iff _ (lt_def (d := d) (e := e)).symm

instance : StrictTotal Edge where
  irrefl a h := by rw [lt_def] at h; omega
  trans h h' := by rw [lt_def] at *; omega
  tri {a b} h h' := by
    rw [lt_def] at h h'
    have h1 : a.lo = b.lo := by omega
    have h2 : a.hi = b.hi := by omega
    cases a; cases b; simp_all

theorem between_comm (a b : Nat) : between a b = between b a := by
  simp [between, Nat.min_comm, Nat.max_comm]

/-- The other end of an edge. -/
def other? (q : Nat) (e : Edge) : Option Nat := if e.lo = q then some e.hi else if e.hi = q then some e.lo else none

theorem other?_eq_some {q p : Nat} {e : Edge} (h : e.lo < e.hi) : e.other? q = some p ↔ e = between q p := by
  cases e with
  | mk lo hi =>
    simp only [other?, between, Edge.mk.injEq] at *
    split
    · simp only [Option.some.injEq]; omega
    · split
      · simp only [Option.some.injEq]; omega
      · simp only [reduceCtorEq, false_iff]; omega

end Edge

structure Device where
  nodes : List Nat
  edges : List Edge
  nodes_ascending : nodes.Pairwise (· < ·)
  edges_ascending : edges.Pairwise (· < ·)
  edges_proper : ∀ e ∈ edges, e.lo < e.hi ∧ e.lo ∈ nodes ∧ e.hi ∈ nodes
  deriving DecidableEq, Repr

namespace Device

def empty : Device := ⟨[], [], .nil, .nil, by simp⟩

def isEmpty (d : Device) : Bool := d.nodes.isEmpty

def addNode (d : Device) (q : Nat) : Device where
  nodes := Ascending.insert q d.nodes
  edges := d.edges
  nodes_ascending := Ascending.insert_ascending d.nodes_ascending
  edges_ascending := d.edges_ascending
  edges_proper e he :=
    have h := d.edges_proper e he
    ⟨h.1, Ascending.mem_insert.mpr (.inr h.2.1), Ascending.mem_insert.mpr (.inr h.2.2)⟩

/-- Couples two distinct nodes. -/
def addEdge (d : Device) (a b : Nat) : Except Error Device :=
  if hne : a = b then .error (.configuration (.selfLoop a b))
  else if hm : a ∈ d.nodes ∧ b ∈ d.nodes then
    .ok { d with
      edges := Ascending.insert (Edge.between a b) d.edges
      edges_ascending := Ascending.insert_ascending d.edges_ascending
      edges_proper := fun e he => by
        rcases Ascending.mem_insert.mp he with rfl | he
        · simp only [Edge.between, Nat.min_def, Nat.max_def]
          split
          · exact ⟨by omega, hm.1, hm.2⟩
          · exact ⟨by omega, hm.2, hm.1⟩
        · exact d.edges_proper e he }
  else .error (.configuration (.unknownEndpoint a b))

/-- The device with these nodes, coupled by these edges in order. -/
def ofEdges (nodes : List Nat) (edges : List (Nat × Nat)) : Except Error Device :=
  edges.foldlM (fun d e => d.addEdge e.1 e.2) (nodes.foldl addNode empty)

def adjacent (d : Device) (a b : Nat) : Bool := decide (Edge.between a b ∈ d.edges)

/-- The qubits coupled to `q`. -/
def partners (d : Device) (q : Nat) : List Nat := d.edges.filterMap (Edge.other? q)

/-- The qubits coupled to a node. -/
def neighbors (d : Device) (q : Nat) : Except Error (List Nat) :=
  if q ∈ d.nodes then .ok (d.partners q) else .error (.range (.notANode q))

/-- Refuses what is not a node. -/
def requireNode (d : Device) (q : Nat) : Except Error Unit :=
  if q ∈ d.nodes then .ok () else .error (.range (.notANode q))

def maxNode (d : Device) : Except Error Nat :=
  match d.nodes.getLast? with
  | some q => .ok q
  | none => .error (.configuration .noNodes)

def text (d : Device) : String :=
  "CouplingGraph(" ++ toString d.nodes.length ++ " nodes, " ++ toString d.edges.length ++ " edges):\n  Edges: "
    ++ ", ".intercalate (d.edges.map fun e => "(" ++ toString e.lo ++ "-" ++ toString e.hi ++ ")")

/-! ## Adjacency -/

theorem adjacent_comm (d : Device) (a b : Nat) : d.adjacent a b = d.adjacent b a := by
  simp [adjacent, Edge.between_comm a b]

theorem mem_nodes_of_adjacent {d : Device} {a b : Nat} (h : d.adjacent a b = true) : a ∈ d.nodes ∧ b ∈ d.nodes := by
  have hp := d.edges_proper _ (of_decide_eq_true h)
  simp only [Edge.between, Nat.min_def, Nat.max_def] at hp
  split at hp
  · exact hp.2
  · exact hp.2.symm

theorem adjacent_self (d : Device) (a : Nat) : d.adjacent a a = false := by
  refine decide_eq_false fun h => ?_
  have := (d.edges_proper _ h).1
  simp [Edge.between] at this

theorem mem_partners {d : Device} {p q : Nat} : p ∈ d.partners q ↔ d.adjacent q p = true := by
  simp only [partners, List.mem_filterMap, adjacent, decide_eq_true_eq]
  constructor
  · rintro ⟨e, he, hp⟩
    exact (Edge.other?_eq_some (d.edges_proper e he).1).mp hp ▸ he
  · exact fun h => ⟨_, h, (Edge.other?_eq_some (d.edges_proper _ h).1).mpr rfl⟩

theorem partners_ascending (d : Device) (q : Nat) : (d.partners q).Pairwise (· < ·) := by
  have h : d.edges.Pairwise fun e f => e.lo < e.hi ∧ f.lo < f.hi ∧ e < f :=
    d.edges_ascending.imp_of_mem fun he hf hlt => ⟨(d.edges_proper _ he).1, (d.edges_proper _ hf).1, hlt⟩
  refine List.Pairwise.filterMap (Edge.other? q) (fun e f ⟨he, hf, hlt⟩ p hp r hr => ?_) h
  rw [Edge.lt_def] at hlt
  simp only [Edge.other?] at hp hr
  split at hp <;> split at hr <;> (try split at hp) <;> (try split at hr) <;> simp at hp hr <;> omega

/-! ## Building -/

theorem mem_addNode {d : Device} {p q : Nat} : p ∈ (d.addNode q).nodes ↔ p = q ∨ p ∈ d.nodes :=
  Ascending.mem_insert

theorem addEdge_eq_ok {d e : Device} {a b : Nat} (h : d.addEdge a b = .ok e) :
    a ≠ b ∧ a ∈ d.nodes ∧ b ∈ d.nodes ∧ e.nodes = d.nodes ∧ e.edges = Ascending.insert (Edge.between a b) d.edges := by
  unfold addEdge at h
  split at h
  · cases h
  · rename_i hne
    split at h
    · rename_i hm
      cases h
      exact ⟨hne, hm.1, hm.2, rfl, rfl⟩
    · cases h

theorem ext {d e : Device} (hn : d.nodes = e.nodes) (he : d.edges = e.edges) : d = e := by
  cases d; cases e; simp_all

theorem addNode_of_mem {d : Device} {q : Nat} (h : q ∈ d.nodes) : d.addNode q = d :=
  ext (Ascending.eq_of_mem_iff (d.addNode q).nodes_ascending d.nodes_ascending fun p => by
    rw [mem_addNode]
    exact ⟨fun hp => hp.elim (· ▸ h) id, .inr⟩) rfl

theorem addEdge_of_adjacent {d : Device} {a b : Nat} (h : d.adjacent a b = true) : d.addEdge a b = .ok d := by
  have hne : a ≠ b := fun e => by rw [e, adjacent_self] at h; cases h
  have hm := mem_nodes_of_adjacent h
  unfold addEdge
  rw [dif_neg hne, dif_pos hm]
  congr 1
  refine ext rfl (Ascending.eq_of_mem_iff (Ascending.insert_ascending d.edges_ascending) d.edges_ascending fun e => ?_)
  rw [Ascending.mem_insert]
  exact ⟨fun he => he.elim (· ▸ of_decide_eq_true h) id, .inr⟩

end Device

end CircuitMapping
