/-
  CircuitMapping.Proofs.Device.Topologies — which qubits are coupled on a line, on a ring and on a star.

  Couplings between distinct nodes can all be added one after the other, and the device then couples what it coupled
  before and the pairs added (`exists_foldlM_addEdge`). The devices of common shapes start from nodes that are not
  coupled (`mem_nodes_isolated`, `adjacent_isolated`). So a line couples the numbers that follow each other
  (`exists_line`), a ring its last number with its first as well (`exists_ring`), and a star its center with every
  other node (`exists_star`).
-/
import CircuitMapping.Device.Topology
import CircuitMapping.Proofs.Success

namespace CircuitMapping

open Success

theorem Edge.between_eq_between {a b p q : Nat} : between a b = between p q ↔ (a, b) = (p, q) ∨ (a, b) = (q, p) := by
  simp only [between, Edge.mk.injEq, Prod.mk.injEq]
  omega

namespace Device

variable {d e : Device} {a b p q : Nat}

/-! ## Adding nodes and couplings -/

theorem mem_nodes_foldl_addNode (qs : List Nat) (d : Device) :
    q ∈ (qs.foldl addNode d).nodes ↔ q ∈ d.nodes ∨ q ∈ qs := by
  induction qs generalizing d with
  | nil => simp
  | cons r qs ih =>
    rw [List.foldl_cons, ih, mem_addNode, List.mem_cons, or_assoc, or_left_comm]

theorem adjacent_foldl_addNode (qs : List Nat) (d : Device) :
    (qs.foldl addNode d).adjacent p q = d.adjacent p q := by
  induction qs generalizing d with
  | nil => rfl
  | cons r qs ih => exact ih (d.addNode r)

theorem mem_nodes_listed {ns : List Nat} : q ∈ (ns.foldl addNode empty).nodes ↔ q ∈ ns := by
  simp [mem_nodes_foldl_addNode, empty]

theorem adjacent_listed (ns : List Nat) (p q : Nat) : (ns.foldl addNode empty).adjacent p q = false := by
  rw [adjacent_foldl_addNode]
  rfl

theorem mem_nodes_isolated {n : Nat} : q ∈ (isolated n).nodes ↔ q < n := by
  rw [isolated, mem_nodes_listed, List.mem_range]

theorem adjacent_isolated (n p q : Nat) : (isolated n).adjacent p q = false := adjacent_listed _ p q

theorem adjacent_of_addEdge (h : d.addEdge a b = .ok e) :
    e.adjacent p q = true ↔ d.adjacent p q = true ∨ (a, b) = (p, q) ∨ (a, b) = (q, p) := by
  obtain ⟨-, -, -, -, hedges⟩ := addEdge_eq_ok h
  unfold adjacent
  rw [decide_eq_true_iff, decide_eq_true_iff, hedges, Ascending.mem_insert, eq_comm, Edge.between_eq_between]
  exact or_comm

theorem exists_addEdge (hne : a ≠ b) (ha : a ∈ d.nodes) (hb : b ∈ d.nodes) : ∃ e, d.addEdge a b = .ok e := by
  unfold addEdge
  rw [dif_neg hne, dif_pos ⟨ha, hb⟩]
  exact ⟨_, rfl⟩

/-- Couplings between distinct nodes can all be added, and nothing else becomes coupled. -/
theorem exists_foldlM_addEdge {α : Type} {xs : List α} (ends : α → Nat × Nat)
    (h : ∀ x ∈ xs, (ends x).1 ≠ (ends x).2 ∧ (ends x).1 ∈ d.nodes ∧ (ends x).2 ∈ d.nodes) :
    ∃ e, xs.foldlM (fun d x => d.addEdge (ends x).1 (ends x).2) d = .ok e ∧ e.nodes = d.nodes ∧
      ∀ p q, e.adjacent p q = true ↔ d.adjacent p q = true ∨ ∃ x ∈ xs, ends x = (p, q) ∨ ends x = (q, p) := by
  induction xs generalizing d with
  | nil => exact ⟨d, rfl, rfl, by simp⟩
  | cons x xs ih =>
    obtain ⟨⟨hne, ha, hb⟩, hxs⟩ := List.forall_mem_cons.mp h
    obtain ⟨u, hu⟩ := exists_addEdge hne ha hb
    obtain ⟨-, -, -, hnodes, -⟩ := addEdge_eq_ok hu
    obtain ⟨e, he, henodes, hadj⟩ := ih (d := u) (by rwa [hnodes])
    refine ⟨e, bind_eq_ok.mpr ⟨u, hu, he⟩, henodes.trans hnodes, ?_⟩
    intro p q
    rw [hadj, adjacent_of_addEdge hu, List.exists_mem_cons_iff, or_assoc]

/-! ## Common shapes -/

/-- A line couples the numbers that follow each other. -/
theorem exists_line {n : Nat} (hn : n ≠ 0) : ∃ d, line n = .ok d ∧ (∀ q, q ∈ d.nodes ↔ q < n) ∧
    ∀ p q, d.adjacent p q = true ↔ p < n ∧ q < n ∧ (q = p + 1 ∨ p = q + 1) := by
  have hends : ∀ i ∈ List.range (n - 1), i ≠ i + 1 ∧ i ∈ (isolated n).nodes ∧ i + 1 ∈ (isolated n).nodes := by
    intro i hi
    rw [List.mem_range] at hi
    rw [mem_nodes_isolated, mem_nodes_isolated]
    omega
  obtain ⟨d, hd, hnodes, hadj⟩ := exists_foldlM_addEdge (fun i => (i, i + 1)) hends
  refine ⟨d, (if_neg hn).trans hd, ?_, ?_⟩
  · intro q
    rw [hnodes, mem_nodes_isolated]
  · intro p q
    simp only [hadj, adjacent_isolated, List.mem_range, Prod.mk.injEq]
    constructor
    · rintro (h | ⟨i, hi, h⟩)
      · cases h
      · omega
    · rintro ⟨hp, hq, rfl | rfl⟩
      · exact .inr ⟨p, by omega, .inl ⟨rfl, rfl⟩⟩
      · exact .inr ⟨q, by omega, .inr ⟨rfl, rfl⟩⟩

/-- A ring couples the numbers that follow each other, and the last one with the first. -/
theorem exists_ring {n : Nat} (hn : 3 ≤ n) : ∃ d, ring n = .ok d ∧ (∀ q, q ∈ d.nodes ↔ q < n) ∧
    ∀ p q, d.adjacent p q = true ↔
      p < n ∧ q < n ∧ (q = p + 1 ∨ p = q + 1 ∨ p = 0 ∧ q = n - 1 ∨ q = 0 ∧ p = n - 1) := by
  obtain ⟨l, hl, hnodes, hadj⟩ := exists_line (n := n) (by omega)
  have hends : 0 ∈ l.nodes ∧ n - 1 ∈ l.nodes := by
    rw [hnodes, hnodes]
    omega
  obtain ⟨d, hd⟩ := exists_addEdge (by omega) hends.1 hends.2
  obtain ⟨-, -, -, hsame, -⟩ := addEdge_eq_ok hd
  refine ⟨d, (if_neg (by omega)).trans (bind_eq_ok.mpr ⟨l, hl, hd⟩), ?_, ?_⟩
  · intro q
    rw [hsame, hnodes]
  · intro p q
    rw [adjacent_of_addEdge hd, hadj, Prod.mk.injEq, Prod.mk.injEq]
    omega

/-- A star couples its center with every other node. -/
theorem exists_star {leaves center : Nat} (hl : leaves ≠ 0) (hc : center ≤ leaves) :
    ∃ d, star leaves center = .ok d ∧ (∀ q, q ∈ d.nodes ↔ q ≤ leaves) ∧
      ∀ p q, d.adjacent p q = true ↔ p ≤ leaves ∧ q ≤ leaves ∧ p ≠ q ∧ (p = center ∨ q = center) := by
  have hmem : ∀ q, q ∈ (List.range (leaves + 1)).filter (· != center) ↔ q ≤ leaves ∧ q ≠ center := by
    intro q
    rw [List.mem_filter, List.mem_range, Nat.lt_succ_iff, bne_iff_ne]
  have hends : ∀ q ∈ (List.range (leaves + 1)).filter (· != center),
      center ≠ q ∧ center ∈ (isolated (leaves + 1)).nodes ∧ q ∈ (isolated (leaves + 1)).nodes := by
    intro q hq
    rw [hmem] at hq
    rw [mem_nodes_isolated, mem_nodes_isolated]
    omega
  obtain ⟨d, hd, hnodes, hadj⟩ := exists_foldlM_addEdge (fun q => (center, q)) hends
  refine ⟨d, (if_neg hl).trans ((if_neg (Nat.not_lt.mpr hc)).trans hd), ?_, ?_⟩
  · intro q
    rw [hnodes, mem_nodes_isolated, Nat.lt_succ_iff]
  · intro p q
    simp only [hadj, adjacent_isolated, hmem, Prod.mk.injEq]
    constructor
    · rintro (h | ⟨r, hr, h⟩)
      · cases h
      · omega
    · rintro ⟨hp, hq, hne, rfl | rfl⟩
      · exact .inr ⟨q, ⟨hq, Ne.symm hne⟩, .inl ⟨rfl, rfl⟩⟩
      · exact .inr ⟨p, ⟨hp, hne⟩, .inr ⟨rfl, rfl⟩⟩

end Device

end CircuitMapping
