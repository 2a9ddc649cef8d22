/-
  CircuitMapping.Proofs.Device.Adjacency — rows of neighbours that are kept by hand always agree.

  The rows of a device under construction and its count of couplings represent a device (`Represents`): each row is
  that of the partners, and the count is the number of edges. A call keeps this, and it is refused for the rows exactly
  when it is refused for the device (`Represents.addNode`, `Represents.addEdge`); so any calls in a row keep it
  (`Represents.calls`), refused ones and repeated ones in either orientation included. Rows that represent a device
  answer every query as the device does (`Represents.answers`), and what a device guarantees by its type then holds of
  them (`Answers.consistent`).

  What is coupled after any calls can be read off the calls: the pairs of distinct nodes added before a call that
  couples them (`adjacent_calls`).
-/
import CircuitMapping.Device.Adjacency
import CircuitMapping.Device.Path
import CircuitMapping.Proofs.Device.EdgeLists
import Mathlib.Data.List.Induction

namespace CircuitMapping

open Success

namespace Device

variable {d e : Device} {a b p q : Nat}

theorem partners_of_addEdge (h : d.addEdge a b = .ok e) (q : Nat) : e.partners q =
    if b = q then Ascending.insert a (d.partners b)
    else if a = q then Ascending.insert b (d.partners a) else d.partners q := by
  obtain ⟨hne, -⟩ := addEdge_eq_ok h
  have hadj : ∀ p, p ∈ e.partners q ↔ p ∈ d.partners q ∨ (a, b) = (q, p) ∨ (a, b) = (p, q) := by
    intro p
    rw [mem_partners, mem_partners, adjacent_of_addEdge h]
  simp only [Prod.mk.injEq] at hadj
  refine Ascending.eq_of_mem_iff (partners_ascending e q) ?_ ?_
  · split
    · exact Ascending.insert_ascending (partners_ascending d b)
    · split
      · exact Ascending.insert_ascending (partners_ascending d a)
      · exact partners_ascending d q
  · intro p
    rw [hadj]
    split
    · rw [Ascending.mem_insert]
      grind
    · split
      · rw [Ascending.mem_insert]
        grind
      · grind

theorem partners_of_not_mem (h : q ∉ d.nodes) : d.partners q = [] :=
  List.eq_nil_iff_forall_not_mem.mpr fun _ hp => h (mem_nodes_of_adjacent (mem_partners.mp hp)).1

end Device

/-- A search reads nothing but the partners. -/
theorem Links.distancesFrom_congr {l l' : Links} (h : ∀ q, l.partners q = l'.partners q) (rounds source : Nat) :
    l.distancesFrom rounds source = l'.distancesFrom rounds source := by
  have hexpand : ∀ k s, Spread.expand l k s = Spread.expand l' k s := by
    intro k s
    rw [Spread.expand, Spread.expand, funext h]
  have hrings : ∀ k s, Spread.rings l rounds k s = Spread.rings l' rounds k s := by
    induction rounds with
    | zero => exact fun _ _ => rfl
    | succ rounds ih =>
      intro k s
      rw [Spread.rings, Spread.rings, hexpand, ih]
  rw [distancesFrom, distancesFrom, hrings]

namespace Adjacency

variable {t : Adjacency} {d e : Device} {a b p q : Nat}

/-! ## Rows that represent a device -/

/-- The rows are those of the partners, and the count is the number of edges. -/
structure Represents (t : Adjacency) (d : Device) : Prop where
  rows : ∀ q, t.rows[q]? = if q ∈ d.nodes then some (d.partners q) else none
  couplings : t.couplings = d.edges.length

theorem represents_empty : empty.Represents .empty where
  rows _ := Std.TreeMap.getElem?_emptyc
  couplings := rfl

theorem Represents.row (h : t.Represents d) (q : Nat) : t.row q = d.partners q := by
  rw [row_eq, h.rows]
  split
  · rfl
  · rename_i hq
    rw [Device.partners_of_not_mem hq]
    rfl

theorem Represents.hasNode_iff (h : t.Represents d) : t.hasNode q = true ↔ q ∈ d.nodes := by
  rw [Adjacency.hasNode_iff, h.rows]
  by_cases hq : q ∈ d.nodes <;> simp [hq]

theorem Represents.addNode (h : t.Represents d) (q : Nat) : (t.addNode q).Represents (d.addNode q) where
  rows p := by
    have hpartners : (d.addNode q).partners p = d.partners p := rfl
    rw [getElem?_addNode, h.rows, h.row, hpartners]
    by_cases hp : p = q
    · subst hp
      rw [if_pos rfl, if_pos (Device.mem_addNode.mpr (.inl rfl))]
    · rw [if_neg hp]
      simp only [Device.mem_addNode, hp, false_or]
  couplings := h.couplings

/-- A new coupling is entered in the rows of both its ends, and counted. -/
theorem Represents.couple (h : t.Represents d) (he : d.addEdge a b = .ok e) (hnew : d.adjacent a b = false) :
    { (t.enter a b).enter b a with couplings := t.couplings + 1 : Adjacency }.Represents e := by
  obtain ⟨hne, ha, hb, hnodes, hedges⟩ := Device.addEdge_eq_ok he
  have hrow : (t.enter a b).row b = d.partners b := by
    rw [row_eq, getElem?_enter, if_neg hne, ← row_eq, h.row]
  refine ⟨?_, ?_⟩
  · intro q
    show ((t.enter a b).enter b a).rows[q]? = _
    rw [getElem?_enter, hrow, getElem?_enter, h.row, h.rows, hnodes, Device.partners_of_addEdge he]
    by_cases hbq : b = q
    · subst hbq
      rw [if_pos rfl, if_pos hb, if_pos rfl]
    · by_cases haq : a = q
      · subst haq
        rw [if_neg hbq, if_pos rfl, if_pos ha, if_neg hbq, if_pos rfl]
      · rw [if_neg hbq, if_neg haq, if_neg hbq, if_neg haq]
  · show t.couplings + 1 = _
    rw [hedges, Ascending.length_insert (of_decide_eq_false hnew), h.couplings]

/-- Rows and device accept the same edges, and refuse the others with the same error and nothing changed. -/
theorem Represents.addEdge (h : t.Represents d) (a b : Nat) :
    (∃ e, d.addEdge a b = .ok e ∧ (t.addEdge a b).2 = .ok () ∧ (t.addEdge a b).1.Represents e) ∨
      ∃ x, d.addEdge a b = .error x ∧ t.addEdge a b = (t, .error x) := by
  unfold Adjacency.addEdge
  cases hd : d.addEdge a b with
  | error x =>
    refine .inr ⟨x, rfl, ?_⟩
    rcases Device.addEdge_eq_error hd with ⟨heq, rfl⟩ | ⟨hne, hm, rfl⟩
    · rw [if_pos heq]
    · rw [if_neg hne, if_neg fun hm' => hm ⟨h.hasNode_iff.mp hm'.1, h.hasNode_iff.mp hm'.2⟩]
  | ok e =>
    obtain ⟨hne, ha, hb, -⟩ := Device.addEdge_eq_ok hd
    refine .inl ⟨e, rfl, ?_⟩
    rw [if_neg hne, if_pos ⟨h.hasNode_iff.mpr ha, h.hasNode_iff.mpr hb⟩, h.row]
    split
    · rename_i hadj
      rw [Device.addEdge_of_adjacent (Device.mem_partners.mp hadj)] at hd
      cases hd
      exact ⟨rfl, h⟩
    · rename_i hadj
      rw [Device.mem_partners] at hadj
      exact ⟨rfl, h.couple hd (Bool.eq_false_iff.mpr hadj)⟩

theorem Represents.call (h : t.Represents d) (c : Device.Call) :
    (t.call c).2 = (d.call c).2 ∧ (t.call c).1.Represents (d.call c).1 := by
  cases c with
  | node q => exact ⟨rfl, h.addNode q⟩
  | edge a b =>
    show (t.addEdge a b).2 = _ ∧ (t.addEdge a b).1.Represents _
    rcases h.addEdge a b with ⟨e, hd, hok, he⟩ | ⟨x, hd, herr⟩
    · simp only [Device.call, hd]
      exact ⟨hok, he⟩
    · simp only [Device.call, hd, herr]
      exact ⟨trivial, h⟩

theorem Represents.calls (h : t.Represents d) (cs : List Device.Call) : (t.calls cs).Represents (d.calls cs) := by
  induction cs generalizing t d with
  | nil => exact h
  | cons c cs ih => exact ih (h.call c).2

theorem Represents.foldl_addNode (h : t.Represents d) (ns : List Nat) :
    (ns.foldl Adjacency.addNode t).Represents (ns.foldl Device.addNode d) := by
  induction ns generalizing t d with
  | nil => exact h
  | cons q ns ih => exact ih (h.addNode q)

/-- An edge list builds rows exactly when it builds a device, and then they represent it. -/
theorem ofEdges_represents (ns : List Nat) (es : List (Nat × Nat)) :
    (∃ t d, ofEdges ns es = .ok t ∧ Device.ofEdges ns es = .ok d ∧ t.Represents d) ∨
      ∃ x, ofEdges ns es = .error x ∧ Device.ofEdges ns es = .error x := by
  unfold ofEdges Device.ofEdges
  generalize ht : ns.foldl Adjacency.addNode empty = t
  generalize hd : ns.foldl Device.addNode .empty = d
  have h : t.Represents d := ht ▸ hd ▸ represents_empty.foldl_addNode ns
  clear ht hd
  induction es generalizing t d with
  | nil => exact .inl ⟨t, d, rfl, rfl, h⟩
  | cons e es ih =>
    rw [List.foldlM_cons, List.foldlM_cons]
    rcases h.addEdge e.1 e.2 with ⟨d', hd', hok, h'⟩ | ⟨x, hd', herr⟩
    · rw [hd', hok]
      exact ih _ _ h'
    · rw [hd', herr]
      exact .inr ⟨x, rfl, rfl⟩

/-! ## Queries -/

/-- Every query is answered as the device answers it. -/
structure Answers (t : Adjacency) (d : Device) : Prop where
  nodes : t.nodes = d.nodes
  edges : t.edges = d.edges
  couplings : t.couplings = d.edges.length
  adjacent : ∀ a b, t.adjacent a b = d.adjacent a b
  neighbors : ∀ q, t.neighbors q = d.neighbors q
  distances : ∀ b, t.links.distancesFrom t.nodes.length b = d.distancesFrom b
  nearer : ∀ found q k, t.links.nearer found q k = d.links.nearer found q k

theorem mem_nodes_iff : q ∈ t.nodes ↔ t.rows[q]? ≠ none := by
  rw [nodes, Std.TreeMap.mem_keys, Std.TreeMap.mem_iff_isSome_getElem?, Option.isSome_iff_ne_none]

theorem nodes_ascending (t : Adjacency) : t.nodes.Pairwise (· < ·) :=
  Std.TreeMap.ordered_keys.imp Nat.compare_eq_lt.mp

theorem mem_edges_iff {x : Edge} : x ∈ t.edges ↔ x.lo < x.hi ∧ x.hi ∈ t.row x.lo := by
  unfold edges
  simp only [List.mem_flatMap, List.mem_map, List.mem_filter, decide_eq_true_eq, Prod.exists,
    Std.TreeMap.mem_toList_iff_getElem?_eq_some, row_eq]
  constructor
  · rintro ⟨q, ps, hq, p, ⟨hp, hlt⟩, rfl⟩
    exact ⟨hlt, by rwa [hq]⟩
  · rintro ⟨hlt, hx⟩
    cases hq : t.rows[x.lo]? with
    | none => rw [hq] at hx; cases hx
    | some ps =>
      rw [hq] at hx
      exact ⟨x.lo, ps, hq, x.hi, ⟨hx, hlt⟩, rfl⟩

theorem edges_ascending (h : ∀ q, (t.row q).Pairwise (· < ·)) : t.edges.Pairwise (· < ·) := by
  refine List.pairwise_flatMap.mpr ⟨?_, ?_⟩
  · intro r hr
    have hrow := h r.1
    rw [row_eq, Std.TreeMap.mem_toList_iff_getElem?_eq_some.mp hr] at hrow
    exact (hrow.filter _).map _ fun p p' hlt => Edge.lt_def.mpr (.inr ⟨rfl, hlt⟩)
  · refine Std.TreeMap.ordered_keys_toList.imp fun {r r'} hlt x hx y hy => ?_
    obtain ⟨p, -, rfl⟩ := List.mem_map.mp hx
    obtain ⟨p', -, rfl⟩ := List.mem_map.mp hy
    exact Edge.lt_def.mpr (.inl (Nat.compare_eq_lt.mp hlt))

theorem Represents.nodes (h : t.Represents d) : t.nodes = d.nodes := by
  refine Ascending.eq_of_mem_iff t.nodes_ascending d.nodes_ascending fun q => ?_
  rw [mem_nodes_iff, h.rows]
  by_cases hq : q ∈ d.nodes <;> simp [hq]

theorem Represents.partners_links (h : t.Represents d) (q : Nat) : t.links.partners q = d.links.partners q :=
  (h.row q).trans (d.partners_links q).symm

theorem Represents.answers (h : t.Represents d) : t.Answers d where
  nodes := h.nodes
  edges := by
    refine Ascending.eq_of_mem_iff (edges_ascending fun q => ?_) d.edges_ascending fun x => ?_
    · rw [h.row]
      exact d.partners_ascending q
    · rw [mem_edges_iff, h.row, Device.mem_partners, Device.mem_edges_iff]
  couplings := h.couplings
  adjacent a b := by
    rw [Adjacency.adjacent, h.row, Bool.eq_iff_iff, List.contains_iff_mem, Device.mem_partners]
  neighbors q := by
    unfold Adjacency.neighbors Device.neighbors
    rw [h.rows]
    by_cases hq : q ∈ d.nodes <;> simp [hq]
  distances b := by
    rw [h.nodes]
    exact Links.distancesFrom_congr h.partners_links d.nodes.length b
  nearer found q k := by
    rw [Links.nearer, Links.nearer, h.partners_links]

/-- Where an edge list describes a device, it builds rows that answer as the device does. -/
theorem exists_answers {ns : List Nat} {es : List (Nat × Nat)} (h : Device.ofEdges ns es = .ok d) :
    ∃ t, ofEdges ns es = .ok t ∧ t.Answers d := by
  rcases ofEdges_represents ns es with ⟨t, d', ht, hd', hrep⟩ | ⟨x, -, hx⟩
  · rw [h] at hd'
    cases hd'
    exact ⟨t, ht, hrep.answers⟩
  · rw [h] at hx
    cases hx

/-- What rows that are kept by hand could get wrong, and do not. -/
structure Consistent (t : Adjacency) : Prop where
  symmetric : ∀ a b, t.adjacent a b = t.adjacent b a
  irreflexive : ∀ a, t.adjacent a a = false
  neighbors_ascending : ∀ q ps, t.neighbors q = .ok ps → ps.Pairwise (· < ·)
  neighbors_adjacent : ∀ q ps, t.neighbors q = .ok ps → ∀ p, p ∈ ps ↔ t.adjacent q p = true
  neighbors_within : ∀ q ps, t.neighbors q = .ok ps → ∀ p ∈ ps, p ∈ t.nodes
  counted : t.couplings = t.edges.length
  edges_ascending : t.edges.Pairwise (· < ·)
  edges_proper : ∀ e ∈ t.edges, e.lo < e.hi
  edges_adjacent : ∀ a b, Edge.between a b ∈ t.edges ↔ t.adjacent a b = true
  nodes_ascending : t.nodes.Pairwise (· < ·)

theorem Answers.eq_partners (h : t.Answers d) {ps : List Nat} (hps : t.neighbors q = .ok ps) : ps = d.partners q := by
  rw [h.neighbors, Device.neighbors] at hps
  split at hps
  · cases hps
    rfl
  · cases hps

theorem Answers.consistent (h : t.Answers d) : t.Consistent where
  symmetric a b := by
    rw [h.adjacent, h.adjacent, d.adjacent_comm]
  irreflexive a := by
    rw [h.adjacent, d.adjacent_self]
  neighbors_ascending q ps hps := h.eq_partners hps ▸ d.partners_ascending q
  neighbors_adjacent q ps hps p := by
    rw [h.eq_partners hps, Device.mem_partners, h.adjacent]
  neighbors_within q ps hps p hp := by
    rw [h.eq_partners hps, Device.mem_partners] at hp
    rw [h.nodes]
    exact (Device.mem_nodes_of_adjacent hp).2
  counted := by
    rw [h.couplings, h.edges]
  edges_ascending := h.edges ▸ d.edges_ascending
  edges_proper e he := (d.edges_proper e (h.edges ▸ he)).1
  edges_adjacent a b := by
    rw [h.edges, h.adjacent, Device.adjacent, decide_eq_true_iff]
  nodes_ascending := t.nodes_ascending

end Adjacency

/-! ## What calls leave -/

namespace Device

variable {d : Device} {c : Call} {cs : List Call} {p q : Nat}

/-- One of the calls couples two qubits that are distinct and were added before it. -/
def CoupledBy (cs : List Call) (p q : Nat) : Prop :=
  ∃ before after, cs = before ++ .edge p q :: after ∧ p ≠ q ∧ .node p ∈ before ∧ .node q ∈ before

theorem calls_concat (d : Device) (cs : List Call) (c : Call) : d.calls (cs ++ [c]) = ((d.calls cs).call c).1 := by
  simp only [calls, List.foldl_append, List.foldl_cons, List.foldl_nil]

theorem mem_nodes_call : q ∈ (d.call c).1.nodes ↔ q ∈ d.nodes ∨ c = .node q := by
  cases c with
  | node r =>
    simp only [call, mem_addNode, Call.node.injEq]
    rw [or_comm, eq_comm]
  | edge a b =>
    simp only [call, reduceCtorEq, or_false]
    cases h : d.addEdge a b with
    | ok e => rw [(addEdge_eq_ok h).2.2.2.1]
    | error x => rfl

theorem adjacent_call : (d.call c).1.adjacent p q = true ↔
    d.adjacent p q = true ∨ (p ≠ q ∧ p ∈ d.nodes ∧ q ∈ d.nodes) ∧ (c = .edge p q ∨ c = .edge q p) := by
  cases c with
  | node r =>
    simp only [reduceCtorEq, or_self, and_false, or_false]
    rfl
  | edge a b =>
    simp only [call, Call.edge.injEq]
    cases h : d.addEdge a b with
    | ok e =>
      obtain ⟨hne, ha, hb, -⟩ := addEdge_eq_ok h
      rw [adjacent_of_addEdge h, Prod.mk.injEq, Prod.mk.injEq]
      refine or_congr_right ⟨fun he => ⟨?_, he⟩, And.right⟩
      rcases he with ⟨rfl, rfl⟩ | ⟨rfl, rfl⟩
      · exact ⟨hne, ha, hb⟩
      · exact ⟨Ne.symm hne, hb, ha⟩
    | error x =>
      refine (or_iff_left ?_).symm
      rintro ⟨⟨hne, hp, hq⟩, ⟨rfl, rfl⟩ | ⟨rfl, rfl⟩⟩
      · rcases addEdge_eq_error h with ⟨heq, -⟩ | ⟨-, hm, -⟩
        · exact hne heq
        · exact hm ⟨hp, hq⟩
      · rcases addEdge_eq_error h with ⟨heq, -⟩ | ⟨-, hm, -⟩
        · exact hne heq.symm
        · exact hm ⟨hq, hp⟩

theorem mem_nodes_calls : q ∈ (empty.calls cs).nodes ↔ .node q ∈ cs := by
  induction cs using List.reverseRecOn with
  | nil => simp [calls, empty]
  | append_singleton cs c ih =>
    rw [calls_concat, mem_nodes_call, ih, List.mem_append, List.mem_singleton, eq_comm (a := c)]

theorem coupledBy_concat : CoupledBy (cs ++ [c]) p q ↔
    CoupledBy cs p q ∨ c = .edge p q ∧ p ≠ q ∧ .node p ∈ cs ∧ .node q ∈ cs := by
  constructor
  · rintro ⟨before, after, hcs, hcoupled⟩
    rcases List.eq_nil_or_concat after with rfl | ⟨after, last, rfl⟩
    · obtain ⟨rfl, hc⟩ := List.append_inj' hcs rfl
      exact .inr ⟨List.singleton_inj.mp hc, hcoupled⟩
    · rw [List.concat_eq_append, ← List.cons_append, ← List.append_assoc] at hcs
      exact .inl ⟨before, after, (List.append_inj' hcs rfl).1, hcoupled⟩
  · rintro (⟨before, after, rfl, hcoupled⟩ | ⟨rfl, hcoupled⟩)
    · exact ⟨before, after ++ [c], by simp, hcoupled⟩
    · exact ⟨cs, [], rfl, hcoupled⟩

theorem adjacent_calls : (empty.calls cs).adjacent p q = true ↔ CoupledBy cs p q ∨ CoupledBy cs q p := by
  induction cs using List.reverseRecOn with
  | nil => simp [calls, empty, adjacent, CoupledBy]
  | append_singleton cs c ih =>
    rw [calls_concat, adjacent_call, ih, coupledBy_concat, coupledBy_concat, mem_nodes_calls, mem_nodes_calls]
    grind

end Device

namespace Adjacency

variable {t : Adjacency} {a b : Nat} {x : Error}

/-- What is refused leaves the rows and the count as they were. -/
theorem fst_addEdge_of_error (h : (t.addEdge a b).2 = .error x) : (t.addEdge a b).1 = t := by
  unfold addEdge at h ⊢
  split
  · rfl
  · rename_i hne
    rw [if_neg hne] at h
    split
    · rename_i hm
      rw [if_pos hm] at h
      split at h <;> cases h
    · rfl

theorem addEdge_eq_error_iff : (∃ x, (t.addEdge a b).2 = .error x) ↔ a = b ∨ a ∉ t.nodes ∨ b ∉ t.nodes := by
  rw [mem_nodes_iff, mem_nodes_iff, ← hasNode_iff, ← hasNode_iff, ← not_and_or]
  unfold addEdge
  by_cases heq : a = b
  · simp [heq]
  · by_cases hm : t.hasNode a ∧ t.hasNode b
    · rw [if_neg heq, if_pos hm]
      split <;> simp [heq, hm]
    · rw [if_neg heq, if_neg hm]
      simp [hm]

/-- After any calls, refused and repeated ones included: the rows agree with each other, with the count and with the
    device that the same calls build; what is coupled is what the calls couple; a refused edge changes nothing; and
    the nodes and edges listed build the rows, and the device, again. -/
theorem rows_stay_consistent (cs : List Device.Call) :
    (empty.calls cs).Consistent ∧ (empty.calls cs).Answers (Device.empty.calls cs) ∧
    (∀ q, q ∈ (empty.calls cs).nodes ↔ .node q ∈ cs) ∧
    (∀ p q, (empty.calls cs).adjacent p q = true ↔ Device.CoupledBy cs p q ∨ Device.CoupledBy cs q p) ∧
    (∀ a b, ((∃ x, ((empty.calls cs).addEdge a b).2 = .error x) ↔
        a = b ∨ a ∉ (empty.calls cs).nodes ∨ b ∉ (empty.calls cs).nodes) ∧
      ∀ x, ((empty.calls cs).addEdge a b).2 = .error x → ((empty.calls cs).addEdge a b).1 = empty.calls cs) ∧
    (∃ t, ofEdges (empty.calls cs).nodes ((empty.calls cs).edges.map Edge.ends) = .ok t ∧
      t.Answers (Device.empty.calls cs)) ∧
    Device.ofEdges (empty.calls cs).nodes ((empty.calls cs).edges.map Edge.ends) = .ok (Device.empty.calls cs) := by
  have hrep : (empty.calls cs).Represents (Device.empty.calls cs) := represents_empty.calls cs
  have hans := hrep.answers
  refine ⟨hans.consistent, hans, ?_, ?_, fun a b => ⟨addEdge_eq_error_iff, fun x => fst_addEdge_of_error⟩, ?_, ?_⟩
  · intro q
    rw [hans.nodes, Device.mem_nodes_calls]
  · intro p q
    rw [hans.adjacent, Device.adjacent_calls]
  · rw [hans.nodes, hans.edges]
    exact exists_answers (Device.ofEdges_ends _)
  · rw [hans.nodes, hans.edges, Device.ofEdges_ends]

/-- Calls out of order, repeated, in both orientations, and refused ones between them. -/
def outOfOrder : List Device.Call :=
  [.edge 4 7, .node 7, .node 4, .edge 7 4, .edge 4 7, .edge 4 4, .node 4, .node 9, .edge 9 7, .edge 9 2, .edge 7 9]

/-- Two couplings are left, each of them counted once. -/
theorem rows_stay_consistent_outOfOrder :
    (empty.calls outOfOrder).couplings = 2 ∧ (empty.calls outOfOrder).edges = [⟨4, 7⟩, ⟨7, 9⟩] ∧
    (empty.calls outOfOrder).neighbors 7 = .ok [4, 9] ∧ (∀ p ∈ [4, 9], p ∈ (empty.calls outOfOrder).nodes) ∧
    ((empty.calls outOfOrder).addEdge 9 2).2 = .error (.configuration (.unknownEndpoint 9 2)) ∧
    ((empty.calls outOfOrder).addEdge 9 2).1 = empty.calls outOfOrder := by
  have hrow : (empty.calls outOfOrder).neighbors 7 = .ok [4, 9] := by decide +kernel
  have hrefused : ((empty.calls outOfOrder).addEdge 9 2).2 = .error (.configuration (.unknownEndpoint 9 2)) := by
    decide +kernel
  obtain ⟨hconsistent, -, -, -, hcall, -, -⟩ := rows_stay_consistent outOfOrder
  exact ⟨by decide +kernel, by decide +kernel, hrow, hconsistent.neighbors_within 7 [4, 9] hrow, hrefused,
    (hcall 9 2).2 _ hrefused⟩

end Adjacency

end CircuitMapping
