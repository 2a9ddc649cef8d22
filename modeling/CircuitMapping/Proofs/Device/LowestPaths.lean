/-
  CircuitMapping.Proofs.Device.LowestPaths — without draws a path is the first of all shortest ones.

  A way between two qubits is shortest when no walk between them is shorter (`IsShortest`), that is, when it is as long
  as their distance (`isShortest_iff`). Every path found is one (`isShortest_of_shortestPath`), whatever is drawn. What
  is left of a shortest way after a step is as long as the distance there, so its next qubit is a candidate for that
  step. The source `Lowest` takes the lowest candidate: a way that takes another one comes later in the lexicographic
  order, wherever it leads, and a way that takes the same one is compared from there on (`eq_or_lex_descend`). So
  choosing step by step, without looking ahead, finds the first of all shortest ways.
-/
import CircuitMapping.Proofs.Device.ShortestPaths

namespace CircuitMapping

open Success

namespace Device

variable {σ : Type} [Source σ] {d : Device} {path : List Nat} {a b p k : Nat}

/-! ## Shortest ways -/

/-- The qubits along a walk from `a` to `b` than which none is shorter. -/
def IsShortest (d : Device) (path : List Nat) (a b : Nat) : Prop :=
  ∃ w : d.graph.Walk a b, w.support = path ∧ ∀ v : d.graph.Walk a b, w.length ≤ v.length

/-- A walk is shortest when it is as long as the distance of its ends. -/
theorem isShortest_iff (hb : b ∈ d.nodes) :
    d.IsShortest path a b ↔ ∃ w : d.graph.Walk a b, w.support = path ∧ d.hops? a b = some w.length := by
  refine exists_congr fun w => and_congr_right fun _ => ?_
  rw [hops?_eq_some_iff_isLeast hb]
  constructor
  · intro h
    refine ⟨⟨w, rfl⟩, ?_⟩
    rintro _ ⟨v, rfl⟩
    exact h v
  · intro h v
    exact h.2 ⟨v, rfl⟩

/-- A path leads along a walk. -/
theorem IsPath.exists_walk (h : d.IsPath path a b) : ∃ w : d.graph.Walk a b, w.support = path := by
  obtain ⟨hhead, hlast, hcoupled, -⟩ := h
  induction path generalizing a with
  | nil => cases hhead
  | cons q path ih =>
    obtain rfl : q = a := Option.some.inj hhead
    cases path with
    | nil =>
      obtain rfl : q = b := Option.some.inj hlast
      exact ⟨.nil, rfl⟩
    | cons r path =>
      obtain ⟨hqr, hpath⟩ := List.isChain_cons_cons.mp hcoupled
      obtain ⟨w, hw⟩ := ih rfl hlast hpath
      exact ⟨.cons (graph_adj.mpr hqr) w, by rw [SimpleGraph.Walk.support_cons, hw]⟩

/-- Whatever is drawn, no walk is shorter than a path found. -/
theorem isShortest_of_shortestPath {s s' : σ} (h : d.shortestPath a b s = .ok (path, s')) : d.IsShortest path a b := by
  have hpath := isPath_of_shortestPath h
  obtain ⟨-, hb, k, hk, rfl, -⟩ := shortestPath_eq_ok h
  obtain ⟨w, hw⟩ := hpath.exists_walk
  have hsteps := (isPath_descend (descends_distancesFrom d b) k s hk).2.1
  have hlen := congrArg List.length hw
  rw [SimpleGraph.Walk.length_support, List.length_cons, hsteps] at hlen
  exact (isShortest_iff hb).mpr ⟨w, hw, hk.trans (congrArg some (Nat.succ.inj hlen).symm)⟩

/-- What is left of a shortest walk after its first step is shortest again. -/
theorem hops?_of_walk (hb : b ∈ d.nodes) (hap : d.adjacent a p = true) (w : d.graph.Walk p b)
    (h : d.hops? a b = some (w.length + 1)) : d.hops? p b = some w.length := by
  obtain ⟨i, hi, hp⟩ := exists_hops?_le_length hb w
  obtain ⟨j, hj, ha⟩ := hops?_of_adjacent_of_hops? hb hp ((d.adjacent_comm p a).trans hap)
  rw [h] at ha
  cases ha
  rw [hp, show i = w.length by omega]

/-! ## The lowest choice at every step -/

theorem nearer_ascending (d : Device) (found : Distances) (q k : Nat) :
    (d.links.nearer found q k).Pairwise (· < ·) := by
  unfold Links.nearer
  rw [partners_links]
  exact (d.partners_ascending q).filter _

/-- No shortest walk comes before the one that takes the lowest candidate at every step. -/
theorem eq_or_lex_descend (hb : b ∈ d.nodes) (w : d.graph.Walk a b) (h : d.hops? a b = some w.length) :
    w.support = a :: (d.links.descend (d.distancesFrom b) w.length a Lowest.mk).1 ∨
      List.Lex (· < ·) (a :: (d.links.descend (d.distancesFrom b) w.length a Lowest.mk).1) w.support := by
  induction w with
  | nil => exact .inl rfl
  | @cons a p b hap w ih =>
    rw [SimpleGraph.Walk.length_cons] at h
    have hp := hops?_of_walk hb (graph_adj.mp hap) w h
    have hmem : p ∈ d.links.nearer (d.distancesFrom b) a w.length := mem_nearer.mpr ⟨graph_adj.mp hap, hp⟩
    have hasc := nearer_ascending d (d.distancesFrom b) a w.length
    rw [SimpleGraph.Walk.length_cons, SimpleGraph.Walk.support_cons]
    unfold Links.descend
    split
    · rename_i hnil
      rw [hnil] at hmem
      cases hmem
    · rename_i c cs hcons
      rw [hcons] at hmem hasc
      simp only [Source.pick_lowest]
      rcases List.mem_cons.mp hmem with rfl | hmem
      · -- the same step, so the rest decides
        rcases ih hb hp with heq | hlex
        · exact .inl (by rw [heq])
        · exact .inr (.cons hlex)
      · rw [← w.cons_tail_support]
        exact .inr (.cons (.rel ((List.pairwise_cons.mp hasc).1 p hmem)))

/-- Without draws a path is found between linked nodes, and of all shortest ways between them it is the first in the
    lexicographic order. -/
theorem shortestPath_is_first_of_all (ha : a ∈ d.nodes) (hb : b ∈ d.nodes) (hl : d.Linked a b) :
    ∃ path, d.shortestPath a b Lowest.mk = .ok (path, .mk) ∧ d.IsShortest path a b ∧
      ∀ other, d.IsShortest other a b → other = path ∨ List.Lex (· < ·) path other := by
  obtain ⟨k, hk⟩ := exists_hops?_of_linked hb hl
  obtain ⟨path, s, hok, -, -⟩ := shortestPath_of_hops? ha hb hk Lowest.mk
  refine ⟨path, hok, isShortest_of_shortestPath hok, ?_⟩
  intro other hother
  obtain ⟨w, rfl, hw⟩ := (isShortest_iff hb).mp hother
  obtain ⟨-, -, k', hk', rfl, -⟩ := shortestPath_eq_ok hok
  obtain rfl : w.length = k' := Option.some.inj (hw.symm.trans hk')
  exact eq_or_lex_descend hb w hw

/-- A qubit with a lower neighbour that leads nowhere, and two ways on beside it. -/
def withSpur : Device :=
  ⟨[0, 2, 4, 5, 7, 9], [⟨0, 5⟩, ⟨2, 5⟩, ⟨2, 7⟩, ⟨4, 5⟩, ⟨4, 7⟩, ⟨7, 9⟩], by decide, by decide, by decide⟩

/-- The lowest neighbour of the start is passed over, and the lower of the other two is taken. -/
theorem shortestPath_is_first_of_all_withSpur :
    (5 ∈ withSpur.nodes ∧ 9 ∈ withSpur.nodes ∧ withSpur.Linked 5 9) ∧
    withSpur.shortestPath 5 9 Lowest.mk = .ok ([5, 2, 7, 9], .mk) ∧
    withSpur.IsShortest [5, 2, 7, 9] 5 9 ∧ withSpur.IsShortest [5, 4, 7, 9] 5 9 ∧
    ∀ other, withSpur.IsShortest other 5 9 → other = [5, 2, 7, 9] ∨ List.Lex (· < ·) [5, 2, 7, 9] other := by
  have h5 : 5 ∈ withSpur.nodes := by decide
  have h9 : 9 ∈ withSpur.nodes := by decide
  have hfirst : withSpur.shortestPath 5 9 Lowest.mk = .ok ([5, 2, 7, 9], .mk) := by decide +kernel
  have hlast : withSpur.shortestPath 5 9 Last.mk = .ok ([5, 4, 7, 9], .mk) := by decide +kernel
  have hl : withSpur.Linked 5 9 := by
    obtain ⟨-, -, k, hk, -⟩ := shortestPath_eq_ok hfirst
    exact linked_of_hops? hk
  obtain ⟨path, hok, hshort, hall⟩ := shortestPath_is_first_of_all h5 h9 hl
  rw [hfirst] at hok
  cases hok
  exact ⟨⟨h5, h9, hl⟩, hfirst, hshort, isShortest_of_shortestPath hlast, hall⟩

end Device

end CircuitMapping
