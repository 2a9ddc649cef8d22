/-
  CircuitMapping.Proofs.Device.Paths — a path that the device returns is a path.

  The distances of a search go down to its source: from every node at distance `k + 1` there is a coupled one at
  distance `k`, and only the source is at distance 0 (`descends_distancesFrom`). So the steps of `shortestPath` never
  run out of candidates, whatever is drawn, and the list that it returns is a path between the two nodes along
  couplings that visits no node twice (`isPath_of_shortestPath`).
-/
import CircuitMapping.Device.Path
import CircuitMapping.Proofs.Success
import Mathlib.Data.List.Chain

namespace CircuitMapping

open Success

/-! ## Distances go down to the source -/

/-- Distances from a source: one step nearer is always possible, and only the source is at distance 0. -/
structure Distances.Descends (d : Device) (source : Nat) (found : Distances) : Prop where
  zero : ∀ p, found[p]? = some 0 → p = source
  succ : ∀ p k, found[p]? = some (k + 1) → ∃ q, d.adjacent p q = true ∧ found[q]? = some k

/-- A search whose outermost ring is ring `k`. -/
structure Spread.AtRing (d : Device) (source k : Nat) (s : Spread) : Prop where
  descends : s.found.Descends d source
  front : ∀ p ∈ s.front, s.found[p]? = some k

namespace Spread

theorem atRing_start (d : Device) (source : Nat) : (start source).AtRing d source 0 := by
  have hf : ∀ p k, (start source).found[p]? = some k → p = source ∧ k = 0 := by
    intro p k h
    simp only [start, Std.TreeMap.getElem?_insert, Nat.compare_eq_eq] at h
    split at h
    · rename_i e
      exact ⟨e.symm, (Option.some.inj h).symm⟩
    · simp at h
  refine ⟨⟨fun p h => (hf p 0 h).1, ?_⟩, ?_⟩
  · intro p k h
    have := (hf p (k + 1) h).2
    omega
  · intro p hp
    rw [List.mem_singleton.mp hp]
    simp [start]

theorem found_expand (l : Links) (k : Nat) (s : Spread) (p : Nat) :
    (s.expand l k).found[p]? = s.found[p]?.or (if p ∈ s.front.flatMap l.partners then some k else none) :=
  found_foldl_enter k _ _ p

theorem atRing_expand {d : Device} {source k : Nat} {s : Spread} (h : s.AtRing d source k) :
    (s.expand d.links (k + 1)).AtRing d source (k + 1) := by
  have old : ∀ {p j : Nat}, s.found[p]? = some j → (s.expand d.links (k + 1)).found[p]? = some j := by
    intro p j hp
    rw [found_expand, hp]; rfl
  -- what is newly found lies beside the front
  have split : ∀ {p j : Nat}, (s.expand d.links (k + 1)).found[p]? = some j →
      s.found[p]? = some j ∨ j = k + 1 ∧ ∃ q ∈ s.front, d.adjacent q p = true := by
    intro p j hp
    rw [found_expand] at hp
    cases hs : s.found[p]? with
    | some i => rw [hs] at hp; exact .inl hp
    | none =>
      rw [hs, Option.none_or] at hp
      split at hp
      · rename_i hm
        obtain ⟨q, hq, hqp⟩ := List.mem_flatMap.mp hm
        rw [Device.partners_links, Device.mem_partners] at hqp
        exact .inr ⟨(Option.some.inj hp).symm, q, hq, hqp⟩
      · cases hp
  refine ⟨⟨?_, ?_⟩, ?_⟩
  · intro p hp
    rcases split hp with hp | ⟨hj, -⟩
    · exact h.descends.zero p hp
    · omega
  · intro p j hp
    rcases split hp with hp | ⟨hj, q, hq, hqp⟩
    · obtain ⟨q, hpq, hq⟩ := h.descends.succ p j hp
      exact ⟨q, hpq, old hq⟩
    · have : j = k := by omega
      subst this
      exact ⟨q, (d.adjacent_comm p q).trans hqp, old (h.front q hq)⟩
  · intro p hp
    rcases mem_front_foldl_enter.mp hp with hp | ⟨hp, hn⟩
    · cases hp
    · rw [found_expand, if_pos hp, show s.found[p]? = none from hn]; rfl

theorem descends_rings {d : Device} {source : Nat} (rounds : Nat) {k : Nat} {s : Spread} (h : s.AtRing d source k) :
    (rings d.links rounds (k + 1) s).found.Descends d source := by
  induction rounds generalizing k s with
  | zero => exact h.descends
  | succ rounds ih => exact ih (atRing_expand h)

end Spread

namespace Device

theorem descends_distancesFrom (d : Device) (source : Nat) : (d.distancesFrom source).Descends d source :=
  Spread.descends_rings _ (Spread.atRing_start d source)

/-! ## Paths -/

/-- A way from `a` to `b` along couplings that visits no qubit twice. -/
structure IsPath (d : Device) (path : List Nat) (a b : Nat) : Prop where
  head : path.head? = some a
  last : path.getLast? = some b
  coupled : path.IsChain fun p q => d.adjacent p q = true
  nodup : path.Nodup

theorem isPath_single (d : Device) (a : Nat) : d.IsPath [a] a a :=
  ⟨rfl, rfl, List.isChain_singleton a, List.pairwise_singleton _ a⟩

theorem IsPath.cons {d : Device} {path : List Nat} {a b c : Nat} (h : d.IsPath path b c)
    (hab : d.adjacent a b = true) (ha : a ∉ path) : d.IsPath (a :: path) a c := by
  cases path with
  | nil => cases h.head
  | cons p path =>
    obtain rfl : p = b := Option.some.inj h.head
    exact ⟨rfl, h.last, List.isChain_cons_cons.mpr ⟨hab, h.coupled⟩, List.nodup_cons.mpr ⟨ha, h.nodup⟩⟩

variable {σ : Type} [Source σ]

/-- Going down from distance `k` ends at the source, after `k` steps to ever smaller distances. -/
theorem isPath_descend {d : Device} {found : Distances} {source : Nat} (hf : found.Descends d source) (k : Nat)
    {q : Nat} (s : σ) (hq : found[q]? = some k) :
    d.IsPath (q :: (d.links.descend found k q s).1) q source ∧ (d.links.descend found k q s).1.length = k ∧
      ∀ p ∈ (d.links.descend found k q s).1, ∃ j < k, found[p]? = some j := by
  induction k generalizing q s with
  | zero =>
    rw [hf.zero q hq]
    refine ⟨isPath_single d source, rfl, ?_⟩
    intro p hp; cases hp
  | succ k ih =>
    obtain ⟨n, hqn, hn⟩ := hf.succ q k hq
    have mem : ∀ {p : Nat}, p ∈ d.links.nearer found q k ↔ d.adjacent q p = true ∧ found[p]? = some k := by
      intro p
      simp [Links.nearer, partners_links, mem_partners]
    unfold Links.descend
    split
    · rename_i hnil
      have := mem.mpr ⟨hqn, hn⟩
      rw [hnil] at this; cases this
    · rename_i p ps hcons
      -- the step taken, whichever candidate it is
      have hpick := Source.pick_mem p ps s
      rw [← hcons] at hpick
      obtain ⟨hadj, hk⟩ := mem.mp hpick
      obtain ⟨hpath, hlen, hlow⟩ := ih (Source.pick p ps s).2 hk
      have hlow' : ∀ p' ∈ (Source.pick p ps s).1 :: (d.links.descend found k (Source.pick p ps s).1
          (Source.pick p ps s).2).1, ∃ j < k + 1, found[p']? = some j := by
        intro p' hp'
        rcases List.mem_cons.mp hp' with rfl | hp'
        · exact ⟨k, by omega, hk⟩
        · obtain ⟨j, hj, hfj⟩ := hlow p' hp'
          exact ⟨j, by omega, hfj⟩
      refine ⟨hpath.cons hadj ?_, by simp [hlen], hlow'⟩
      intro hmem
      obtain ⟨j, hj, hfj⟩ := hlow' q hmem
      rw [hq] at hfj
      have := Option.some.inj hfj
      omega

theorem requireNode_eq_ok {d : Device} {q : Nat} {u : Unit} : d.requireNode q = .ok u ↔ q ∈ d.nodes := by
  unfold requireNode
  split
  · rename_i h
    exact ⟨fun _ => h, fun _ => rfl⟩
  · rename_i h
    exact ⟨fun h' => (by cases h'), fun h' => absurd h' h⟩

/-- Success of `shortestPath` taken apart. -/
theorem shortestPath_eq_ok {d : Device} {a b : Nat} {s s' : σ} {path : List Nat}
    (h : d.shortestPath a b s = .ok (path, s')) :
    a ∈ d.nodes ∧ b ∈ d.nodes ∧ ∃ k, d.hops? a b = some k ∧
      path = a :: (d.links.descend (d.distancesFrom b) k a s).1 ∧
      s' = (d.links.descend (d.distancesFrom b) k a s).2 := by
  unfold shortestPath at h
  obtain ⟨_, ha, h⟩ := bind_eq_ok.mp h
  obtain ⟨_, hb, h⟩ := bind_eq_ok.mp h
  refine ⟨requireNode_eq_ok.mp ha, requireNode_eq_ok.mp hb, ?_⟩
  simp only at h
  split at h
  · cases h
  · rename_i k hk
    have := pure_eq_ok.mp h
    rw [Prod.mk.injEq] at this
    exact ⟨k, hk, this.1.symm, this.2.symm⟩

theorem isPath_of_shortestPath {d : Device} {a b : Nat} {s s' : σ} {path : List Nat}
    (h : d.shortestPath a b s = .ok (path, s')) : d.IsPath path a b := by
  obtain ⟨-, -, k, hk, rfl, -⟩ := shortestPath_eq_ok h
  exact (isPath_descend (descends_distancesFrom d b) k s hk).1

end Device

end CircuitMapping
