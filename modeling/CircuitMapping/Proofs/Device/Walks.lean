/-
  CircuitMapping.Proofs.Device.Walks — the distance of two qubits is the length of a shortest walk between them.

  The couplings of a device are the edges of a graph (`Device.graph`), and its walks are the ways along couplings. A
  distance found by a search is the length of a walk (`Distances.Descends.exists_walk`), since distances go down to
  their source one coupling at a time. When the search is over (`Distances.Complete`) no walk is shorter
  (`Distances.Complete.exists_le_length`), since neighbours of what is found are found at most one coupling further. So
  the search measures the distance of the graph (`hops?_eq_some_iff`), and takes its laws from there: distances are
  symmetric (`hops?_comm`) and obey the triangle inequality. A measure that changes by at most one along a coupling, and
  can always be lowered, is the distance (`hops?_eq_of_descends`).

  The search stops because its front is empty, not because its rounds are used up (`front_rings_eq_nil`).
-/
import CircuitMapping.Proofs.Device.Components
import Mathlib.Combinatorics.SimpleGraph.Metric
import Mathlib.Data.Nat.Dist

namespace CircuitMapping

open Success

/-! ## The end of the search -/

namespace Spread

theorem atRing_rings {d : Device} {source : Nat} (rounds : Nat) {k : Nat} {s : Spread} (h : s.AtRing d source k) :
    (rings d.links rounds (k + 1) s).AtRing d source (k + rounds) := by
  induction rounds generalizing k s with
  | zero => exact h
  | succ rounds ih =>
    have := ih (atRing_expand h)
    rwa [Nat.add_right_comm] at this

/-- After as many rounds as there are nodes nothing is left to go out from. -/
theorem front_rings_eq_nil {d : Device} {b : Nat} (hb : b ∈ d.nodes) :
    (rings d.links d.nodes.length 1 (start b)).front = [] := by
  have hring := atRing_rings d.nodes.length (atRing_start d b)
  rw [Nat.zero_add] at hring
  refine List.eq_nil_iff_forall_not_mem.mpr fun p hp => ?_
  -- a node of the front would be as far away as there are nodes
  have hfar : d.hops? p b = some d.nodes.length := hring.front p hp
  exact Nat.lt_irrefl _ (Device.lt_length_of_hops? hb hfar)

end Spread

namespace Device

variable {d : Device} {a b c k : Nat}

/-! ## Distances in the graph of couplings -/

/-- The graph of the couplings of a device. -/
def graph (d : Device) : SimpleGraph Nat where
  Adj a b := d.adjacent a b = true
  symm := ⟨fun a b h => (d.adjacent_comm b a).trans h⟩
  loopless := ⟨fun a h => by rw [adjacent_self] at h; cases h⟩

theorem graph_adj : d.graph.Adj a b ↔ d.adjacent a b = true := Iff.rfl

end Device

namespace Distances

variable {d : Device} {found found' : Distances} {source a k : Nat}

/-- What a search has found when it is over. -/
structure Complete (d : Device) (source : Nat) (found : Distances) : Prop where
  descends : found.Descends d source
  source : found[source]? = some 0
  near : ∀ p q j : Nat, found[p]? = some j → d.adjacent p q = true → ∃ i ≤ j + 1, found[q]? = some i

theorem Descends.exists_walk (h : found.Descends d source) (ha : found[a]? = some k) :
    ∃ w : d.graph.Walk a source, w.length = k := by
  induction k generalizing a with
  | zero =>
    obtain rfl := h.zero a ha
    exact ⟨.nil, rfl⟩
  | succ k ih =>
    obtain ⟨p, hap, hp⟩ := h.succ a k ha
    obtain ⟨w, hw⟩ := ih hp
    exact ⟨.cons (Device.graph_adj.mpr hap) w, by rw [SimpleGraph.Walk.length_cons, hw]⟩

theorem Complete.exists_le_length (h : found.Complete d source) (w : d.graph.Walk a source) :
    ∃ k ≤ w.length, found[a]? = some k := by
  induction w with
  | nil => exact ⟨0, Nat.le_refl 0, h.source⟩
  | cons hadj w ih =>
    obtain ⟨k, hk, hp⟩ := ih h
    obtain ⟨i, hi, ha⟩ := h.near _ _ k hp ((d.adjacent_comm _ _).trans (Device.graph_adj.mp hadj))
    refine ⟨i, ?_, ha⟩
    rw [SimpleGraph.Walk.length_cons]
    omega

/-- A search that is over has found the length of a shortest walk. -/
theorem Complete.getElem?_eq_some_iff (h : found.Complete d source) :
    found[a]? = some k ↔ IsLeast (Set.range fun w : d.graph.Walk a source => w.length) k := by
  constructor
  · intro ha
    refine ⟨h.descends.exists_walk ha, ?_⟩
    rintro _ ⟨w, rfl⟩
    obtain ⟨j, hj, hw⟩ := h.exists_le_length w
    rw [ha] at hw
    cases hw
    exact hj
  · rintro ⟨⟨w, rfl⟩, hleast⟩
    obtain ⟨j, hj, ha⟩ := h.exists_le_length w
    have hle : w.length ≤ j := hleast (h.descends.exists_walk ha)
    rw [ha, show j = w.length by omega]

/-- So two searches that are over have found the same. -/
theorem Complete.getElem?_eq (h : found.Complete d source) (h' : found'.Complete d source) (a : Nat) :
    found[a]? = found'[a]? := by
  refine Option.ext fun k => ?_
  rw [h.getElem?_eq_some_iff, h'.getElem?_eq_some_iff]

end Distances

namespace Device

variable {d : Device} {a b c k : Nat}

theorem complete_distancesFrom (hb : b ∈ d.nodes) : (d.distancesFrom b).Complete d b where
  descends := descends_distancesFrom d b
  source := hops?_self d b
  near _ _ _ hp hpq := hops?_of_adjacent_of_hops? hb hp hpq

theorem exists_walk_of_hops? (h : d.hops? a b = some k) : ∃ w : d.graph.Walk a b, w.length = k :=
  (descends_distancesFrom d b).exists_walk h

theorem exists_hops?_le_length (hb : b ∈ d.nodes) (w : d.graph.Walk a b) : ∃ k ≤ w.length, d.hops? a b = some k :=
  (complete_distancesFrom hb).exists_le_length w

theorem hops?_eq_some_iff_isLeast (hb : b ∈ d.nodes) :
    d.hops? a b = some k ↔ IsLeast (Set.range fun w : d.graph.Walk a b => w.length) k :=
  (complete_distancesFrom hb).getElem?_eq_some_iff

theorem hops?_eq_none_iff_isEmpty (hb : b ∈ d.nodes) : d.hops? a b = none ↔ IsEmpty (d.graph.Walk a b) := by
  constructor
  · intro h
    refine ⟨fun w => ?_⟩
    obtain ⟨j, -, ha⟩ := exists_hops?_le_length hb w
    rw [h] at ha
    cases ha
  · intro h
    refine Option.eq_none_iff_forall_ne_some.mpr fun k hk => ?_
    obtain ⟨w, -⟩ := exists_walk_of_hops? hk
    exact h.false w

/-- The search measures the distance of the graph. -/
theorem hops?_eq_some_iff (hb : b ∈ d.nodes) : d.hops? a b = some k ↔ d.graph.edist a b = k := by
  have hedist : ∀ {j : Nat}, d.hops? a b = some j → d.graph.edist a b = j := by
    intro j hj
    obtain ⟨⟨w, hw⟩, hleast⟩ := (hops?_eq_some_iff_isLeast hb).mp hj
    obtain ⟨v, hv⟩ := w.reachable.exists_walk_length_eq_edist
    refine le_antisymm (hw ▸ w.edist_le) ?_
    rw [← hv]
    exact_mod_cast hleast ⟨v, rfl⟩
  refine ⟨hedist, fun h => ?_⟩
  obtain ⟨w, -⟩ := SimpleGraph.exists_walk_of_edist_eq_coe h
  obtain ⟨j, -, hj⟩ := exists_hops?_le_length hb w
  rw [hedist hj, Nat.cast_inj] at h
  rw [hj, h]

theorem hops?_comm (ha : a ∈ d.nodes) (hb : b ∈ d.nodes) : d.hops? a b = d.hops? b a := by
  refine Option.ext fun k => ?_
  rw [hops?_eq_some_iff hb, hops?_eq_some_iff ha, SimpleGraph.edist_comm]

/-- A way over a third qubit is no shorter. -/
theorem hops?_triangle {i j : Nat} (hb : b ∈ d.nodes) (hac : d.hops? a c = some i)
    (hcb : d.hops? c b = some j) : ∃ k ≤ i + j, d.hops? a b = some k := by
  obtain ⟨v, hv⟩ := exists_walk_of_hops? hac
  obtain ⟨w, hw⟩ := exists_walk_of_hops? hcb
  obtain ⟨k, hk, hab⟩ := exists_hops?_le_length hb (v.append w)
  rw [SimpleGraph.Walk.length_append, hv, hw] at hk
  exact ⟨k, hk, hab⟩

/-- The distance to `b` is any measure that is 0 at `b`, changes by at most 1 along a coupling, and goes down by 1
    along some coupling of every other node. -/
theorem hops?_eq_of_descends {m : Nat → Nat} (hb : b ∈ d.nodes) (hzero : m b = 0)
    (hstep : ∀ p q, d.adjacent p q = true → m p ≤ m q + 1)
    (hdown : ∀ p ∈ d.nodes, p ≠ b → ∃ q, d.adjacent p q = true ∧ m p = m q + 1) (ha : a ∈ d.nodes) :
    d.hops? a b = some (m a) := by
  have hlower : ∀ p (w : d.graph.Walk p b), m p ≤ w.length := by
    intro p w
    induction w with
    | nil => rw [hzero]; exact Nat.zero_le _
    | @cons p q b hadj w ih =>
      have := hstep p q (graph_adj.mp hadj)
      have := ih hb hzero hdown
      rw [SimpleGraph.Walk.length_cons]
      omega
  have hwalk : ∀ n p, p ∈ d.nodes → m p = n → ∃ w : d.graph.Walk p b, w.length = n := by
    intro n
    induction n with
    | zero =>
      intro p hp hm
      by_cases hpb : p = b
      · subst hpb
        exact ⟨.nil, rfl⟩
      · obtain ⟨q, -, hq⟩ := hdown p hp hpb
        omega
    | succ n ih =>
      intro p hp hm
      have hpb : p ≠ b := fun h => by rw [h, hzero] at hm; cases hm
      obtain ⟨q, hpq, hq⟩ := hdown p hp hpb
      obtain ⟨w, hw⟩ := ih q (mem_nodes_of_adjacent hpq).2 (by omega)
      exact ⟨.cons (graph_adj.mpr hpq) w, by rw [SimpleGraph.Walk.length_cons, hw]⟩
  refine (hops?_eq_some_iff_isLeast hb).mpr ⟨hwalk (m a) a ha rfl, ?_⟩
  rintro _ ⟨w, rfl⟩
  exact hlower a w

/-- Between two different numbers below a bound, one of the neighbours of the first is nearer to the second. -/
theorem exists_nearer {x y n : Nat} (hx : x < n) (hy : y < n) (hne : x ≠ y) :
    ∃ z < n, Nat.dist x z = 1 ∧ Nat.dist x y = Nat.dist z y + 1 := by
  simp only [Nat.dist]
  rcases Nat.lt_or_gt_of_ne hne with hlt | hgt
  · exact ⟨x + 1, by omega, by omega, by omega⟩
  · exact ⟨x - 1, by omega, by omega, by omega⟩

/-! ## Asking for a distance -/

theorem requireNode_eq_error {q : Nat} {e : Error} :
    d.requireNode q = .error e ↔ q ∉ d.nodes ∧ e = .range (.notANode q) := by
  unfold requireNode
  split
  · rename_i h
    exact ⟨fun h' => (by cases h'), fun h' => absurd h h'.1⟩
  · rename_i h
    exact ⟨fun h' => (by cases h'; exact ⟨h, rfl⟩), fun h' => by rw [h'.2]⟩

theorem distance_eq_ok {x : Option Nat} : d.distance a b = .ok x ↔ a ∈ d.nodes ∧ b ∈ d.nodes ∧ d.hops? a b = x := by
  constructor
  · intro h
    obtain ⟨_, hb, h⟩ := bind_eq_ok.mp h
    obtain ⟨_, ha, h⟩ := bind_eq_ok.mp h
    exact ⟨requireNode_eq_ok.mp ha, requireNode_eq_ok.mp hb, pure_eq_ok.mp h⟩
  · rintro ⟨ha, hb, h⟩
    exact bind_eq_ok.mpr ⟨(), requireNode_eq_ok.mpr hb, bind_eq_ok.mpr ⟨(), requireNode_eq_ok.mpr ha, pure_eq_ok.mpr h⟩⟩

theorem notANode_of_distance {e : Error} (h : d.distance a b = .error e) :
    ∃ q, (q = a ∨ q = b) ∧ q ∉ d.nodes ∧ e = .range (.notANode q) := by
  rcases bind_eq_error.mp h with h | ⟨_, -, h⟩
  · exact ⟨b, .inr rfl, requireNode_eq_error.mp h⟩
  rcases bind_eq_error.mp h with h | ⟨_, -, h⟩
  · exact ⟨a, .inl rfl, requireNode_eq_error.mp h⟩
  · cases h

/-- The distance of two nodes is the least length of a walk between them, and there is none exactly when there is no
    walk; so it is a metric on every component. The search for it stops because nothing is left to go out from. Only
    what is not a node is refused. -/
theorem distance_is_shortest_walk (d : Device) (a b : Nat) :
    ((∃ x, d.distance a b = .ok x) ↔ a ∈ d.nodes ∧ b ∈ d.nodes) ∧
    (∀ e, d.distance a b = .error e → ∃ q, (q = a ∨ q = b) ∧ q ∉ d.nodes ∧ e = .range (.notANode q)) ∧
    (a ∈ d.nodes → b ∈ d.nodes →
      (Spread.rings d.links d.nodes.length 1 (.start b)).front = [] ∧
      (∀ k, d.distance a b = .ok (some k) ↔ IsLeast (Set.range fun w : d.graph.Walk a b => w.length) k) ∧
      (d.distance a b = .ok none ↔ IsEmpty (d.graph.Walk a b)) ∧
      (d.distance a b = .ok (some 0) ↔ a = b) ∧
      (d.distance a b = .ok (some 1) ↔ d.adjacent a b = true) ∧
      d.distance b a = d.distance a b ∧
      ∀ c ∈ d.nodes, ∀ i j, d.distance a c = .ok (some i) → d.distance c b = .ok (some j) →
        ∃ k ≤ i + j, d.distance a b = .ok (some k)) := by
  refine ⟨?_, fun e => notANode_of_distance, fun ha hb => ?_⟩
  · refine ⟨fun ⟨x, h⟩ => ?_, fun ⟨ha, hb⟩ => ⟨_, distance_eq_ok.mpr ⟨ha, hb, rfl⟩⟩⟩
    exact ⟨(distance_eq_ok.mp h).1, (distance_eq_ok.mp h).2.1⟩
  have hdistance : ∀ x, d.distance a b = .ok x ↔ d.hops? a b = x := by
    intro x
    rw [distance_eq_ok, and_iff_right ha, and_iff_right hb]
  refine ⟨Spread.front_rings_eq_nil hb, ?_, ?_, ?_, ?_, ?_, ?_⟩
  · intro k
    rw [hdistance]
    exact hops?_eq_some_iff_isLeast hb
  · rw [hdistance]
    exact hops?_eq_none_iff_isEmpty hb
  · rw [hdistance, hops?_eq_some_iff hb, Nat.cast_zero, SimpleGraph.edist_eq_zero_iff]
  · rw [hdistance, hops?_eq_some_iff hb, Nat.cast_one, SimpleGraph.edist_eq_one_iff_adj, graph_adj]
  · rw [distance_eq_ok.mpr ⟨ha, hb, rfl⟩, distance_eq_ok.mpr ⟨hb, ha, rfl⟩, hops?_comm ha hb]
  · intro c hc i j hac hcb
    obtain ⟨k, hk, hab⟩ := hops?_triangle hb (distance_eq_ok.mp hac).2.2 (distance_eq_ok.mp hcb).2.2
    exact ⟨k, hk, (hdistance _).mpr hab⟩

/-- A row of three qubits, and a pair that is not coupled to it. -/
def twoParts : Device := ⟨[0, 3, 5, 6, 8], [⟨0, 3⟩, ⟨3, 5⟩, ⟨6, 8⟩], by decide, by decide, by decide⟩

/-- The ends of the row are two couplings apart, and no walk leads to the pair. -/
theorem distance_is_shortest_walk_twoParts :
    (0 ∈ twoParts.nodes ∧ 5 ∈ twoParts.nodes ∧ 8 ∈ twoParts.nodes) ∧
    twoParts.distance 0 5 = .ok (some 2) ∧ IsLeast (Set.range fun w : twoParts.graph.Walk 0 5 => w.length) 2 ∧
    twoParts.distance 0 8 = .ok none ∧ IsEmpty (twoParts.graph.Walk 0 8) := by
  have hm : 0 ∈ twoParts.nodes ∧ 5 ∈ twoParts.nodes ∧ 8 ∈ twoParts.nodes := by decide
  have hnear : twoParts.distance 0 5 = .ok (some 2) := by decide +kernel
  have hfar : twoParts.distance 0 8 = .ok none := by decide +kernel
  obtain ⟨-, -, h5⟩ := distance_is_shortest_walk twoParts 0 5
  obtain ⟨-, -, h8⟩ := distance_is_shortest_walk twoParts 0 8
  exact ⟨hm, hnear, ((h5 hm.1 hm.2.1).2.1 2).mp hnear, hfar, (h8 hm.1 hm.2.2).2.2.1.mp hfar⟩

end Device

end CircuitMapping
