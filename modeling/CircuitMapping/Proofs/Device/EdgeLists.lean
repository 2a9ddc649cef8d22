/-
  CircuitMapping.Proofs.Device.EdgeLists — the device that a list of nodes and a list of edges describe.

  A device is known by its nodes and by which of them are coupled (`eq_of_adjacent`). A description is good when every
  edge has two distinct ends among the nodes listed (`Describes`); then there is a device with the nodes listed that
  couples exactly the pairs listed, in either order, and otherwise the first bad edge is the error
  (`ofEdges_eq_ok_iff`, `ofEdges_eq_error`). A device is the one that its own nodes and edges describe
  (`ofEdges_ends`).
-/
import CircuitMapping.Proofs.Device.Topologies

namespace CircuitMapping

open Success

namespace Edge

/-- The two ends, the smaller one first. -/
def ends (e : Edge) : Nat × Nat := (e.lo, e.hi)

theorem between_ends {e : Edge} (h : e.lo < e.hi) : between e.lo e.hi = e := by
  simp only [between, Nat.min_eq_left (Nat.le_of_lt h), Nat.max_eq_right (Nat.le_of_lt h)]

end Edge

namespace Device

variable {d e : Device} {ns : List Nat} {es : List (Nat × Nat)} {a b p q : Nat}

/-! ## What a device is known by -/

theorem mem_edges_iff {x : Edge} : x ∈ d.edges ↔ x.lo < x.hi ∧ d.adjacent x.lo x.hi = true := by
  unfold adjacent
  rw [decide_eq_true_iff]
  constructor
  · intro h
    have hlt := (d.edges_proper x h).1
    exact ⟨hlt, (Edge.between_ends hlt).symm ▸ h⟩
  · rintro ⟨hlt, h⟩
    exact Edge.between_ends hlt ▸ h

theorem eq_of_adjacent (hnodes : ∀ q, q ∈ d.nodes ↔ q ∈ e.nodes)
    (hadj : ∀ p q, d.adjacent p q = true ↔ e.adjacent p q = true) : d = e := by
  refine ext (Ascending.eq_of_mem_iff d.nodes_ascending e.nodes_ascending hnodes) ?_
  refine Ascending.eq_of_mem_iff d.edges_ascending e.edges_ascending fun x => ?_
  rw [mem_edges_iff, mem_edges_iff, hadj]

/-! ## Good and bad descriptions -/

/-- Every edge has two distinct ends among the nodes. -/
def Describes (ns : List Nat) (es : List (Nat × Nat)) : Prop := ∀ e ∈ es, e.1 ≠ e.2 ∧ e.1 ∈ ns ∧ e.2 ∈ ns

/-- A pair is listed, in either order. -/
def Listed (es : List (Nat × Nat)) (p q : Nat) : Prop := (p, q) ∈ es ∨ (q, p) ∈ es

theorem exists_ofEdges (h : Describes ns es) : ∃ d, ofEdges ns es = .ok d ∧ (∀ q, q ∈ d.nodes ↔ q ∈ ns) ∧
    ∀ p q, d.adjacent p q = true ↔ Listed es p q := by
  have hends : ∀ e ∈ es, e.1 ≠ e.2 ∧ e.1 ∈ (ns.foldl addNode empty).nodes ∧ e.2 ∈ (ns.foldl addNode empty).nodes := by
    intro e he
    rw [mem_nodes_listed, mem_nodes_listed]
    exact h e he
  obtain ⟨d, hd, hnodes, hadj⟩ := exists_foldlM_addEdge id hends
  refine ⟨d, hd, ?_, ?_⟩
  · intro q
    rw [hnodes, mem_nodes_listed]
  · intro p q
    rw [hadj, adjacent_listed]
    unfold Listed
    constructor
    · rintro (h | ⟨e, he, rfl | rfl⟩)
      · cases h
      · exact .inl he
      · exact .inr he
    · rintro (he | he)
      · exact .inr ⟨_, he, .inl rfl⟩
      · exact .inr ⟨_, he, .inr rfl⟩

theorem addEdge_eq_error {x : Error} (h : d.addEdge a b = .error x) :
    a = b ∧ x = .configuration (.selfLoop a b) ∨
      a ≠ b ∧ ¬ (a ∈ d.nodes ∧ b ∈ d.nodes) ∧ x = .configuration (.unknownEndpoint a b) := by
  unfold addEdge at h
  split at h
  · rename_i heq
    cases h
    exact .inl ⟨heq, rfl⟩
  · rename_i hne
    split at h
    · cases h
    · rename_i hm
      cases h
      exact .inr ⟨hne, hm, rfl⟩

theorem nodes_of_foldlM_addEdge (h : es.foldlM (fun d e => d.addEdge e.1 e.2) d = .ok e) : e.nodes = d.nodes :=
  foldlM_keeps (P := fun t : Device => t.nodes = d.nodes)
    (fun _ _ _ _ ht hstep => (addEdge_eq_ok hstep).2.2.2.1.trans ht) rfl h

/-- A description is refused for one of its edges. -/
theorem ofEdges_eq_error {x : Error} (h : ofEdges ns es = .error x) : ∃ e ∈ es,
    e.1 = e.2 ∧ x = .configuration (.selfLoop e.1 e.2) ∨
      e.1 ≠ e.2 ∧ ¬ (e.1 ∈ ns ∧ e.2 ∈ ns) ∧ x = .configuration (.unknownEndpoint e.1 e.2) := by
  obtain ⟨before, e, after, t, rfl, ht, hstep⟩ := foldlM_eq_error_iff.mp h
  refine ⟨e, by simp, ?_⟩
  have hfault := addEdge_eq_error hstep
  rwa [nodes_of_foldlM_addEdge ht, mem_nodes_listed, mem_nodes_listed] at hfault

theorem ofEdges_eq_ok_iff : ofEdges ns es = .ok d ↔
    Describes ns es ∧ (∀ q, q ∈ d.nodes ↔ q ∈ ns) ∧ ∀ p q, d.adjacent p q = true ↔ Listed es p q := by
  constructor
  · intro h
    have hdescribes : Describes ns es := by
      intro e he
      obtain ⟨before, after, rfl⟩ := List.append_of_mem he
      -- the edge was added to a device with the nodes listed
      unfold ofEdges at h
      rw [List.foldlM_append] at h
      obtain ⟨t, ht, h⟩ := bind_eq_ok.mp h
      obtain ⟨u, hu, -⟩ := bind_eq_ok.mp h
      obtain ⟨hne, ha, hb, -⟩ := addEdge_eq_ok hu
      rw [nodes_of_foldlM_addEdge ht, mem_nodes_listed] at ha hb
      exact ⟨hne, ha, hb⟩
    obtain ⟨e, he, hnodes, hadj⟩ := exists_ofEdges hdescribes
    rw [h] at he
    cases he
    exact ⟨hdescribes, hnodes, hadj⟩
  · rintro ⟨hdescribes, hnodes, hadj⟩
    obtain ⟨e, he, hnodes', hadj'⟩ := exists_ofEdges hdescribes
    rw [he, eq_of_adjacent (fun q => (hnodes' q).trans (hnodes q).symm) fun p q => (hadj' p q).trans (hadj p q).symm]

theorem exists_ofEdges_iff : (∃ d, ofEdges ns es = .ok d) ↔ Describes ns es :=
  ⟨fun ⟨_, h⟩ => (ofEdges_eq_ok_iff.mp h).1, fun h => (exists_ofEdges h).imp fun _ hd => hd.1⟩

theorem listed_ends : Listed (d.edges.map Edge.ends) p q ↔ d.adjacent p q = true := by
  have hlt : ∀ {p q : Nat}, (p, q) ∈ d.edges.map Edge.ends ↔ p < q ∧ d.adjacent p q = true := by
    intro p q
    rw [List.mem_map]
    constructor
    · rintro ⟨x, hx, hends⟩
      obtain ⟨rfl, rfl⟩ := Prod.mk.inj hends
      exact mem_edges_iff.mp hx
    · intro h
      exact ⟨⟨p, q⟩, mem_edges_iff.mpr h, rfl⟩
  rw [Listed, hlt, hlt, d.adjacent_comm q p, ← or_and_right]
  refine ⟨And.right, fun h => ⟨?_, h⟩⟩
  have hne : p ≠ q := fun heq => by rw [heq, adjacent_self] at h; cases h
  omega

/-- A device is the one that its own nodes and edges describe. -/
theorem ofEdges_ends (d : Device) : ofEdges d.nodes (d.edges.map Edge.ends) = .ok d := by
  refine ofEdges_eq_ok_iff.mpr ⟨?_, fun _ => Iff.rfl, fun _ _ => listed_ends.symm⟩
  intro e he
  obtain ⟨x, hx, rfl⟩ := List.mem_map.mp he
  obtain ⟨hlt, hlo, hhi⟩ := d.edges_proper x hx
  exact ⟨Nat.ne_of_lt hlt, hlo, hhi⟩

end Device

end CircuitMapping
