/-
  CircuitMapping.Proofs.Device.Components — the search finds what is connected to its source, and nothing else.

  Two qubits are linked (`Linked`) when couplings lead from one to the other. What lies inside the outermost ring of a
  search has all its neighbours found, each at most one ring further out (`Spread.Covers`). A distance found is below
  the number of nodes (`lt_length_of_hops?`), so after as many rounds as there are nodes everything lies inside, and
  the distance of two nodes is missing exactly when they are in different components (`hops?_eq_none_iff`). So a device
  is connected when the search from its lowest node reaches as many nodes as there are (`isConnected_iff`).
-/
import CircuitMapping.Proofs.Device.Paths
import Mathlib.Data.List.Perm.Subperm
import Mathlib.Logic.Relation

namespace CircuitMapping

open Success

/-! ## Neighbours of what has been found -/

/-- A search whose outermost ring is ring `k`, with all neighbours of the rings inside. -/
structure Spread.Covers (d : Device) (k : Nat) (s : Spread) : Prop where
  bound : ∀ p j : Nat, s.found[p]? = some j → j ≤ k
  outer : ∀ p : Nat, s.found[p]? = some k → p ∈ s.front
  near : ∀ p q j : Nat, s.found[p]? = some j → j < k → d.adjacent p q = true → ∃ i ≤ j + 1, s.found[q]? = some i

namespace Spread

theorem found_start {source p k : Nat} : (start source).found[p]? = some k ↔ p = source ∧ k = 0 := by
  simp only [start, Std.TreeMap.getElem?_insert, Nat.compare_eq_eq]
  by_cases e : source = p
  · simp [e, eq_comm]
  · simp [e, Ne.symm e]

theorem covers_start (d : Device) (source : Nat) : (start source).Covers d 0 where
  bound _ _ h := (found_start.mp h).2.le
  outer _ h := List.mem_singleton.mpr (found_start.mp h).1
  near _ _ j _ hj := absurd hj (Nat.not_lt_zero j)

/-- A round finds what lies beside the front and has not been found before. -/
theorem found_expand_eq_some {d : Device} {k p j : Nat} {s : Spread} :
    (s.expand d.links k).found[p]? = some j ↔
      s.found[p]? = some j ∨ s.found[p]? = none ∧ j = k ∧ ∃ q ∈ s.front, d.adjacent q p = true := by
  have hmem : p ∈ s.front.flatMap d.links.partners ↔ ∃ q ∈ s.front, d.adjacent q p = true := by
    simp only [List.mem_flatMap, Device.partners_links, Device.mem_partners]
  rw [found_expand]
  cases hs : s.found[p]? with
  | some i => simp
  | none =>
    by_cases hp : p ∈ s.front.flatMap d.links.partners
    · simp [hp, hmem.mp hp, eq_comm (a := k)]
    · simp [hp, mt hmem.mpr hp]

theorem covers_expand {d : Device} {k : Nat} {s : Spread} (h : s.Covers d k) :
    (s.expand d.links (k + 1)).Covers d (k + 1) where
  bound p j hp := by
    rcases found_expand_eq_some.mp hp with hp | ⟨-, hj, -⟩
    · exact (h.bound p j hp).trans (Nat.le_succ k)
    · exact hj.le
  outer p hp := by
    rcases found_expand_eq_some.mp hp with hp | ⟨hn, -, q, hq, hqp⟩
    · have := h.bound p (k + 1) hp
      omega
    · refine mem_front_foldl_enter.mpr (.inr ⟨List.mem_flatMap.mpr ⟨q, hq, ?_⟩, hn⟩)
      rw [Device.partners_links, Device.mem_partners]
      exact hqp
  near p q j hp hj hpq := by
    rcases found_expand_eq_some.mp hp with hs | ⟨-, hj', -⟩
    · rcases Nat.lt_or_ge j k with hjk | hjk
      · obtain ⟨i, hi, hq⟩ := h.near p q j hs hjk hpq
        exact ⟨i, hi, found_expand_eq_some.mpr (.inl hq)⟩
      · -- `p` is on the ring that this round goes out from
        have hfront := h.outer p (hs.trans (congrArg some (by omega)))
        cases hq : s.found[q]? with
        | some i => exact ⟨i, (h.bound q i hq).trans (by omega), found_expand_eq_some.mpr (.inl hq)⟩
        | none => exact ⟨k + 1, by omega, found_expand_eq_some.mpr (.inr ⟨hq, rfl, p, hfront, hpq⟩)⟩
    · omega

theorem covers_rings {d : Device} (rounds : Nat) {k : Nat} {s : Spread} (h : s.Covers d k) :
    (rings d.links rounds (k + 1) s).Covers d (k + rounds) := by
  induction rounds generalizing k s with
  | zero => exact h
  | succ rounds ih =>
    have := ih (covers_expand h)
    rwa [Nat.add_right_comm] at this

end Spread

namespace Device

variable {d : Device} {a b : Nat}

/-! ## Distances and components -/

/-- Couplings lead from one qubit to the other. -/
def Linked (d : Device) : Nat → Nat → Prop := Relation.ReflTransGen fun p q => d.adjacent p q = true

theorem Linked.symm (h : d.Linked a b) : d.Linked b a := by
  unfold Linked at *
  induction h with
  | refl => exact .refl
  | tail _ hpq ih => exact .head ((d.adjacent_comm _ _).trans hpq) ih

theorem linked_of_adjacent (h : d.adjacent a b = true) : d.Linked a b := .single h

theorem hops?_self (d : Device) (b : Nat) : d.hops? b b = some 0 := by
  have keep : ∀ rounds k (s : Spread), s.found[b]? = some 0 → (Spread.rings d.links rounds k s).found[b]? = some 0 := by
    intro rounds
    induction rounds with
    | zero => intro k s h; exact h
    | succ rounds ih =>
      intro k s h
      refine ih _ _ ?_
      rw [Spread.found_expand, h]
      rfl
  exact keep _ _ _ (Spread.found_start.mpr ⟨rfl, rfl⟩)

/-- Couplings that lead to a node lead along nodes. -/
theorem mem_nodes_of_isChain {path : List Nat} (h : path.IsChain fun p q => d.adjacent p q = true)
    (hlast : path.getLast? = some b) (hb : b ∈ d.nodes) : ∀ p ∈ path, p ∈ d.nodes := by
  induction path with
  | nil => cases hlast
  | cons p path ih =>
    cases path with
    | nil =>
      obtain rfl : p = b := Option.some.inj hlast
      intro q hq
      rw [List.mem_singleton.mp hq]
      exact hb
    | cons q path =>
      obtain ⟨hpq, hpath⟩ := List.isChain_cons_cons.mp h
      intro r hr
      rcases List.mem_cons.mp hr with rfl | hr
      · exact (mem_nodes_of_adjacent hpq).1
      · exact ih hpath hlast r hr

/-- A shortest way visits no node twice. -/
theorem lt_length_of_hops? (hb : b ∈ d.nodes) {k : Nat} (h : d.hops? a b = some k) : k < d.nodes.length := by
  obtain ⟨hpath, hlen, -⟩ := isPath_descend (descends_distancesFrom d b) k Lowest.mk h
  have := (hpath.nodup.subperm (mem_nodes_of_isChain hpath.coupled hpath.last hb)).length_le
  rw [List.length_cons, hlen] at this
  omega

/-- The neighbours of a node that is reached are reached, at most one coupling further. -/
theorem hops?_of_adjacent_of_hops? (hb : b ∈ d.nodes) {p q k : Nat} (h : d.hops? p b = some k)
    (hpq : d.adjacent p q = true) : ∃ i ≤ k + 1, d.hops? q b = some i := by
  have hc := Spread.covers_rings d.nodes.length (Spread.covers_start d b)
  have hk := lt_length_of_hops? hb h
  exact hc.near p q k h (by omega) hpq

theorem exists_hops?_of_linked (hb : b ∈ d.nodes) (h : d.Linked a b) : ∃ k, d.hops? a b = some k := by
  induction h using Relation.ReflTransGen.head_induction_on with
  | refl => exact ⟨0, hops?_self d b⟩
  | head hpq _ ih =>
    obtain ⟨k, hk⟩ := ih
    obtain ⟨i, -, hi⟩ := hops?_of_adjacent_of_hops? hb hk ((d.adjacent_comm _ _).trans hpq)
    exact ⟨i, hi⟩

theorem linked_of_hops? {k : Nat} (h : d.hops? a b = some k) : d.Linked a b := by
  induction k generalizing a with
  | zero =>
    rw [(descends_distancesFrom d b).zero a h]
    exact .refl
  | succ k ih =>
    obtain ⟨p, hap, hp⟩ := (descends_distancesFrom d b).succ a k h
    exact .head hap (ih hp)

theorem hops?_eq_none_iff (hb : b ∈ d.nodes) : d.hops? a b = none ↔ ¬ d.Linked a b := by
  constructor
  · intro hn h
    obtain ⟨k, hk⟩ := exists_hops?_of_linked hb h
    rw [hn] at hk
    cases hk
  · intro hn
    cases h : d.hops? a b with
    | none => rfl
    | some k => exact absurd (linked_of_hops? h) hn

theorem hops?_of_adjacent (h : d.adjacent a b = true) : d.hops? a b = some 1 := by
  obtain ⟨k, hk, ha⟩ := hops?_of_adjacent_of_hops? (mem_nodes_of_adjacent h).2 (hops?_self d b)
    ((d.adjacent_comm b a).trans h)
  rcases Nat.lt_or_ge k 1 with h0 | h1
  · obtain rfl : k = 0 := by omega
    have := (descends_distancesFrom d b).zero a ha
    rw [this, adjacent_self] at h
    cases h
  · rw [ha, show k = 1 by omega]

/-! ## Connected devices -/

theorem mem_nodes_of_linked (h : d.Linked a b) (hb : b ∈ d.nodes) : a ∈ d.nodes := by
  induction h using Relation.ReflTransGen.head_induction_on with
  | refl => exact hb
  | head hpq _ _ => exact (mem_nodes_of_adjacent hpq).1

theorem mem_distancesFrom_iff (hb : b ∈ d.nodes) : a ∈ d.distancesFrom b ↔ d.Linked a b := by
  rw [Std.TreeMap.mem_iff_isSome_getElem?, Option.isSome_iff_ne_none]
  show d.hops? a b ≠ none ↔ _
  rw [Ne, hops?_eq_none_iff hb, not_not]

/-- A device is connected when couplings lead from every node to every other. -/
theorem isConnected_iff : d.isConnected = true ↔ ∀ p ∈ d.nodes, ∀ q ∈ d.nodes, d.Linked p q := by
  unfold isConnected
  split
  · rename_i hn
    simp [hn]
  · rename_i r _ hn
    have hr : r ∈ d.nodes := hn ▸ List.mem_cons_self ..
    -- the nodes reached from the lowest one are all of them when they are as many
    have hmem : ∀ p, p ∈ (d.distancesFrom r).keys ↔ d.Linked p r := fun p =>
      Std.TreeMap.mem_keys.trans (mem_distancesFrom_iff hr)
    have hsub : (d.distancesFrom r).keys.Subperm d.nodes :=
      (Std.TreeMap.nodup_keys).subperm fun p hp => mem_nodes_of_linked ((hmem p).mp hp) hr
    rw [beq_iff_eq, ← Std.TreeMap.length_keys]
    constructor
    · intro hlen p hp q hq
      have hperm := hsub.perm_of_length_le hlen.ge
      have hall : ∀ p ∈ d.nodes, d.Linked p r := fun p hp => (hmem p).mp (hperm.mem_iff.mpr hp)
      exact (hall p hp).trans (hall q hq).symm
    · intro hall
      have hnodup : d.nodes.Nodup := d.nodes_ascending.imp Nat.ne_of_lt
      exact hsub.length_le.antisymm (hnodup.subperm fun p hp => (hmem p).mpr (hall p hp r hr)).length_le

/-! ## When there is a path -/

variable {σ : Type} [Source σ]

theorem shortestPath_of_hops? (ha : a ∈ d.nodes) (hb : b ∈ d.nodes) {k : Nat} (h : d.hops? a b = some k) (s : σ) :
    ∃ path s', d.shortestPath a b s = .ok (path, s') ∧ d.IsPath path a b ∧ path.length = k + 1 := by
  obtain ⟨hpath, hlen, -⟩ := isPath_descend (descends_distancesFrom d b) k s h
  refine ⟨_, (d.links.descend (d.distancesFrom b) k a s).2, ?_, hpath, by rw [List.length_cons, hlen]⟩
  have ha : d.requireNode a = .ok () := requireNode_eq_ok.mpr ha
  have hb : d.requireNode b = .ok () := requireNode_eq_ok.mpr hb
  have h : (d.links.distancesFrom d.nodes.length b)[a]? = some k := h
  simp only [shortestPath, ha, hb, bind, Except.bind, h]
  rfl

theorem shortestPath_of_not_linked (ha : a ∈ d.nodes) (hb : b ∈ d.nodes) (h : ¬ d.Linked a b) (s : σ) :
    d.shortestPath a b s = .error (.noPath a b) := by
  have h : (d.links.distancesFrom d.nodes.length b)[a]? = none := (hops?_eq_none_iff hb).mpr h
  have ha : d.requireNode a = .ok () := requireNode_eq_ok.mpr ha
  have hb : d.requireNode b = .ok () := requireNode_eq_ok.mpr hb
  simp only [shortestPath, ha, hb, bind, Except.bind, h]
  rfl

end Device

end CircuitMapping
