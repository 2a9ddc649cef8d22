/-
  CircuitMapping.Proofs.Device.UniquePaths — where shortest ways are unique, nothing is drawn.

  A source of draws is asked where a step has two candidates, and each of them begins a shortest way of its own. So on a
  device with one shortest way between any two linked nodes (`HasUniquePaths`) every step has a single candidate
  (`HasUniquePaths.exists_nearer`), and a path is the one without draws, with the source as it was
  (`HasUniquePaths.shortestPath_eq`).

  Shortest ways visit no qubit twice, so they are unique where couplings form no circle
  (`hasUniquePaths_of_isAcyclic`): on every tree, on a line, where each coupling is the only one across
  (`isAcyclic_of_consecutive`), and on a star.
-/
import CircuitMapping.Proofs.Device.LowestPaths
import CircuitMapping.Proofs.Device.Topologies
import Mathlib.Combinatorics.SimpleGraph.Star

namespace CircuitMapping

open Success

namespace Device

variable {σ : Type} [Source σ] {d : Device} {a b p k : Nat}

/-- Between any two linked nodes there is exactly one shortest way. -/
def HasUniquePaths (d : Device) : Prop :=
  ∀ a ∈ d.nodes, ∀ b ∈ d.nodes, d.Linked a b → ∃! path, d.IsShortest path a b

/-! ## Single candidates -/

/-- A step to a coupled qubit that is nearer begins a shortest way. -/
theorem exists_isShortest_cons (hb : b ∈ d.nodes) (hk : d.hops? a b = some (k + 1)) (hap : d.adjacent a p = true)
    (hp : d.hops? p b = some k) : ∃ rest, d.IsShortest (a :: p :: rest) a b := by
  obtain ⟨w, rfl⟩ := exists_walk_of_hops? hp
  refine ⟨w.support.tail, (isShortest_iff hb).mpr ⟨.cons (graph_adj.mpr hap) w, ?_, hk⟩⟩
  rw [SimpleGraph.Walk.support_cons, w.cons_tail_support]

theorem HasUniquePaths.exists_nearer (h : d.HasUniquePaths) (hb : b ∈ d.nodes) (hk : d.hops? a b = some (k + 1)) :
    ∃ p, d.links.nearer (d.distancesFrom b) a k = [p] := by
  obtain ⟨p, hap, hp⟩ := (descends_distancesFrom d b).succ a k hk
  have hl := linked_of_hops? hk
  obtain ⟨rest, hrest⟩ := exists_isShortest_cons hb hk hap hp
  refine ⟨p, Ascending.eq_of_mem_iff (nearer_ascending d _ a k) (List.pairwise_singleton _ p) ?_⟩
  intro q
  rw [List.mem_singleton]
  constructor
  · intro hq
    obtain ⟨haq, hq⟩ := mem_nearer.mp hq
    obtain ⟨rest', hrest'⟩ := exists_isShortest_cons hb hk haq hq
    have heq := (h a (mem_nodes_of_linked hl hb) b hb hl).unique hrest' hrest
    simp only [List.cons.injEq] at heq
    exact heq.2.1
  · rintro rfl
    exact mem_nearer.mpr ⟨hap, hp⟩

theorem HasUniquePaths.descend_eq (h : d.HasUniquePaths) (hb : b ∈ d.nodes) (k : Nat) {q : Nat} (s : σ)
    (hq : d.hops? q b = some k) :
    d.links.descend (d.distancesFrom b) k q s = ((d.links.descend (d.distancesFrom b) k q Lowest.mk).1, s) := by
  induction k generalizing q with
  | zero => rfl
  | succ k ih =>
    obtain ⟨p, hp⟩ := h.exists_nearer hb hq
    have hpb : d.hops? p b = some k := (mem_nearer.mp (hp ▸ List.mem_singleton_self p)).2
    simp only [Links.descend, hp, Source.pick_nil, ih hpb]

/-- Whether and how a path is refused does not depend on the source of draws. -/
theorem shortestPath_eq_error_of {τ : Type} [Source τ] {s : σ} {e : Error} (h : d.shortestPath a b s = .error e)
    (s' : τ) : d.shortestPath a b s' = .error e := by
  rcases bind_eq_error.mp h with ha | ⟨_, ha, h'⟩
  · exact bind_eq_error.mpr (.inl ha)
  rcases bind_eq_error.mp h' with hb | ⟨_, hb, -⟩
  · exact bind_eq_error.mpr (.inr ⟨_, ha, bind_eq_error.mpr (.inl hb)⟩)
  rw [requireNode_eq_ok] at ha hb
  by_cases hl : d.Linked a b
  · obtain ⟨k, hk⟩ := exists_hops?_of_linked hb hl
    obtain ⟨path, s₁, hok, -⟩ := shortestPath_of_hops? ha hb hk s
    rw [hok] at h
    cases h
  · rw [shortestPath_of_not_linked ha hb hl] at h ⊢
    cases h
    rfl

/-- Whatever the source of draws, a path is found or refused as without draws, and the source is left as it was. -/
theorem HasUniquePaths.shortestPath_eq (h : d.HasUniquePaths) (a b : Nat) (s : σ) :
    d.shortestPath a b s = (fun r => (r.1, s)) <$> d.shortestPath a b Lowest.mk := by
  cases hlow : d.shortestPath a b Lowest.mk with
  | ok r =>
    obtain ⟨ha, hb, k, hk, hpath, -⟩ := shortestPath_eq_ok hlow
    obtain ⟨path, s', hok, -⟩ := shortestPath_of_hops? ha hb hk s
    obtain ⟨-, -, k', hk', rfl, rfl⟩ := shortestPath_eq_ok hok
    obtain rfl : k = k' := Option.some.inj (hk.symm.trans hk')
    rw [hok, h.descend_eq hb k s hk, ← hpath]
    rfl
  | error e => exact shortestPath_eq_error_of hlow s

/-! ## Couplings without circles -/

theorem hasUniquePaths_of_isAcyclic (h : d.graph.IsAcyclic) : d.HasUniquePaths := by
  intro a _ b hb hl
  obtain ⟨k, hk⟩ := exists_hops?_of_linked hb hl
  obtain ⟨w, hw⟩ := exists_walk_of_hops? hk
  -- a shortest walk visits no qubit twice
  have hpath : ∀ v : d.graph.Walk a b, d.hops? a b = some v.length → v.IsPath := by
    intro v hv
    refine v.isPath_of_length_eq_dist ?_
    rw [SimpleGraph.dist, (hops?_eq_some_iff hb).mp hv]
    rfl
  rw [← hw] at hk
  refine ⟨w.support, (isShortest_iff hb).mpr ⟨w, rfl, hk⟩, ?_⟩
  intro other hother
  obtain ⟨v, rfl, hv⟩ := (isShortest_iff hb).mp hother
  have heq := (h.subsingleton_path a b).elim ⟨v, hpath v hv⟩ ⟨w, hpath w hk⟩
  rw [Subtype.mk.inj heq]

/-- Couplings of consecutive numbers form no circle: only that of `a` and `a + 1` leads on from the numbers up to
    `a`. -/
theorem isAcyclic_of_consecutive (h : ∀ p q, d.adjacent p q = true → q = p + 1 ∨ p = q + 1) : d.graph.IsAcyclic := by
  have hbridge : ∀ a, d.graph.IsBridge s(a, a + 1) := by
    intro a
    refine SimpleGraph.isBridge_iff_forall_walk_mem_edges.mpr fun w => ?_
    obtain ⟨x, hx, hin, hout⟩ := w.exists_boundary_dart {q | q ≤ a} (Nat.le_refl a) (Nat.not_succ_le_self a)
    have hadj := h _ _ (graph_adj.mp x.adj)
    have hfst : x.fst ≤ a := hin
    have hsnd : ¬ x.snd ≤ a := hout
    have hedge : x.edge = s(a, a + 1) := by
      show s(x.fst, x.snd) = s(a, a + 1)
      rw [show x.fst = a by omega, show x.snd = a + 1 by omega]
    exact hedge ▸ List.mem_map_of_mem hx
  refine SimpleGraph.isAcyclic_iff_forall_adj_isBridge.mpr fun p q hpq => ?_
  rcases h p q (graph_adj.mp hpq) with rfl | rfl
  · exact hbridge p
  · rw [Sym2.eq_swap]
    exact hbridge q

theorem hasUniquePaths_line {n : Nat} (hn : n ≠ 0) : ∃ d, line n = .ok d ∧ d.HasUniquePaths := by
  obtain ⟨d, hd, -, hadj⟩ := exists_line hn
  exact ⟨d, hd, hasUniquePaths_of_isAcyclic (isAcyclic_of_consecutive fun p q h => ((hadj p q).mp h).2.2)⟩

theorem hasUniquePaths_star {leaves center : Nat} (hl : leaves ≠ 0) (hc : center ≤ leaves) :
    ∃ d, star leaves center = .ok d ∧ d.HasUniquePaths := by
  obtain ⟨d, hd, -, hadj⟩ := exists_star hl hc
  have hle : d.graph ≤ SimpleGraph.starGraph center := by
    intro p q hpq
    rw [SimpleGraph.starGraph_adj]
    exact ((hadj p q).mp (graph_adj.mp hpq)).2.2
  exact ⟨d, hd, hasUniquePaths_of_isAcyclic ((SimpleGraph.isAcyclic_starGraph center).anti hle)⟩

end Device

end CircuitMapping
