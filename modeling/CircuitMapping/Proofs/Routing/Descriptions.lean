/-
  CircuitMapping.Proofs.Routing.Descriptions — a device description is a set.

  Nodes may be listed in any order and more than once, and edges in any order and orientation and more than once. Only
  what is listed decides whether the description is good, and a good one describes a single device
  (`Device.ofEdges_eq_ok_iff`). So nothing of the order can be seen in any answer: not in the count of couplings that
  is kept while the device is built, in distances, in the choice between equally short paths or in a routed circuit.
-/
import CircuitMapping.Proofs.Device.Adjacency
import CircuitMapping.Proofs.Device.ShortestPaths
import CircuitMapping.Routing.ShortestPath

namespace CircuitMapping

namespace Device

variable {ns ns' : List Nat} {es es' : List (Nat × Nat)}

/-- The same pairs are listed, in whatever order and orientation and however often. -/
def SamePairs (es es' : List (Nat × Nat)) : Prop := ∀ p q, Listed es p q ↔ Listed es' p q

theorem describes_iff : Describes ns es ↔ ∀ p q, Listed es p q → p ≠ q ∧ p ∈ ns ∧ q ∈ ns := by
  constructor
  · rintro h p q (he | he)
    · exact h _ he
    · obtain ⟨hne, hq, hp⟩ := h _ he
      exact ⟨Ne.symm hne, hp, hq⟩
  · intro h e he
    exact h e.1 e.2 (.inl he)

theorem describes_congr (hn : ∀ q, q ∈ ns ↔ q ∈ ns') (he : SamePairs es es') :
    Describes ns es ↔ Describes ns' es' := by
  rw [describes_iff, describes_iff]
  exact forall₂_congr fun p q => imp_congr (he p q) (and_congr_right fun _ => and_congr (hn p) (hn q))

/-- Lists of the same nodes and the same pairs describe the same device. -/
theorem ofEdges_eq_ok_congr (hn : ∀ q, q ∈ ns ↔ q ∈ ns') (he : SamePairs es es') {d : Device} :
    ofEdges ns es = .ok d ↔ ofEdges ns' es' = .ok d := by
  rw [ofEdges_eq_ok_iff, ofEdges_eq_ok_iff, describes_congr hn he]
  refine and_congr_right fun _ => and_congr ?_ ?_
  · exact forall_congr' fun q => iff_congr Iff.rfl (hn q)
  · exact forall₂_congr fun p q => iff_congr Iff.rfl (he p q)

/-- Of two descriptions with the same nodes and the same pairs one is good when the other is. Both then build rows that
    answer alike, with the same count, and the same device: distances, paths with equal draws and routed circuits are
    the same. -/
theorem description_is_a_set (hn : ∀ q, q ∈ ns ↔ q ∈ ns') (he : SamePairs es es') :
    ((∃ d, ofEdges ns es = .ok d) ↔ ∃ d, ofEdges ns' es' = .ok d) ∧
    ∀ d d', ofEdges ns es = .ok d → ofEdges ns' es' = .ok d' →
      d' = d ∧ (∃ t t', Adjacency.ofEdges ns es = .ok t ∧ Adjacency.ofEdges ns' es' = .ok t' ∧
        t.Answers d ∧ t'.Answers d) ∧
      (∀ a b, d'.distance a b = d.distance a b) ∧
      (∀ (σ : Type) [Source σ] (a b : Nat) (s : σ), d'.shortestPath a b s = d.shortestPath a b s) ∧
      ∀ o c initial, Routing.route o c d' initial = Routing.route o c d initial := by
  refine ⟨exists_congr fun d => ofEdges_eq_ok_congr hn he, fun d d' hd hd' => ?_⟩
  obtain rfl : d' = d := by
    rw [ofEdges_eq_ok_congr hn he, hd'] at hd
    exact Except.ok.inj hd
  obtain ⟨t, ht, hans⟩ := Adjacency.exists_answers hd
  obtain ⟨t', ht', hans'⟩ := Adjacency.exists_answers hd'
  exact ⟨rfl, ⟨t, t', ht, ht', hans, hans'⟩, fun _ _ => rfl, fun _ _ _ _ _ => rfl, fun _ _ _ => rfl⟩

/-- The square is also what lists in another order and orientation and with repetitions describe. -/
theorem description_is_a_set_square :
    ((∀ q, q ∈ square.nodes ↔ q ∈ [11, 4, 9, 2, 6, 4]) ∧
      SamePairs (square.edges.map Edge.ends) [(9, 6), (2, 4), (4, 9), (6, 2), (4, 2)]) ∧
    ofEdges square.nodes (square.edges.map Edge.ends) = .ok square ∧
    ofEdges [11, 4, 9, 2, 6, 4] [(9, 6), (2, 4), (4, 9), (6, 2), (4, 2)] = .ok square ∧
    ∃ t, Adjacency.ofEdges [11, 4, 9, 2, 6, 4] [(9, 6), (2, 4), (4, 9), (6, 2), (4, 2)] = .ok t ∧ t.couplings = 4 := by
  have hn : ∀ q, q ∈ square.nodes ↔ q ∈ [11, 4, 9, 2, 6, 4] := by
    intro q
    simp only [square, List.mem_cons, List.not_mem_nil]
    grind
  have he : SamePairs (square.edges.map Edge.ends) [(9, 6), (2, 4), (4, 9), (6, 2), (4, 2)] := by
    intro p q
    simp only [square, Listed, Edge.ends, List.map_cons, List.map_nil, List.mem_cons, List.not_mem_nil, Prod.mk.injEq]
    grind
  have hd := ofEdges_ends square
  obtain ⟨hgood, hsame⟩ := description_is_a_set hn he
  obtain ⟨d, hd'⟩ := hgood.mp ⟨square, hd⟩
  obtain ⟨rfl, ⟨t, t', -, ht', -, hans⟩, -⟩ := hsame square d hd hd'
  exact ⟨⟨hn, he⟩, hd, hd', t', ht', hans.couplings⟩

end Device

end CircuitMapping
