/-
  CircuitMapping.Proofs.Device.Queue — the search with a queue finds what the search in rings finds.

  The nodes in the queue stand in the order of their distances, and nothing that has been found is more than one
  coupling further away than any of them. So when a node leaves the queue, each of its neighbours has been found or is
  found now, at most one coupling further away than itself (`Queued.InOrder`, kept by `inOrder_of_step`). When nobody
  waits, this holds of all that has been found, so the search is over (`Queued.complete_run`), and a search that is over
  has found the distances whichever way it went: those that the rings find (`Device.search_equiv_distancesFrom`).
-/
import CircuitMapping.Device.Queue
import CircuitMapping.Proofs.Device.Walks

namespace CircuitMapping

open Success

namespace Queued

variable {d : Device} {source : Nat} {s s' : Queued}

/-! ## One node leaves the queue -/

/-- The queue stands in the order of distances, and what has left it has all its neighbours found. -/
structure InOrder (d : Device) (source : Nat) (s : Queued) : Prop where
  descends : s.found.Descends d source
  source : s.found[source]? = some 0
  sorted : s.queue.Pairwise fun p q => ∀ i j : Nat, s.found[p]? = some i → s.found[q]? = some j → i ≤ j
  ahead : ∀ p ∈ s.queue, ∀ i : Nat, s.found[p]? = some i → ∀ q j : Nat, s.found[q]? = some j → j ≤ i + 1
  near : ∀ p q j : Nat, s.found[p]? = some j → p ∉ s.queue → d.adjacent p q = true →
    ∃ i ≤ j + 1, s.found[q]? = some i

theorem found_start {p k : Nat} : (start source).found[p]? = some k ↔ p = source ∧ k = 0 := Spread.found_start

theorem inOrder_start (d : Device) (source : Nat) : (start source).InOrder d source where
  descends := (Spread.atRing_start d source).descends
  source := found_start.mpr ⟨rfl, rfl⟩
  sorted := List.pairwise_singleton _ source
  ahead _ _ _ _ _ j hq := by
    have := (found_start.mp hq).2
    omega
  near _ _ _ hp hout _ := absurd (List.mem_singleton.mpr (found_start.mp hp).1) hout

/-- The first node leaves the queue: those of its neighbours that have not been found get one more than its distance and
    stand behind the others. -/
structure Leaves (d : Device) (q k : Nat) (rest new : List Nat) (s s' : Queued) : Prop where
  first : s.queue = q :: rest
  distance : s.found[q]? = some k
  queue : s'.queue = rest ++ new
  mem_new : ∀ p, p ∈ new ↔ d.adjacent q p = true ∧ s.found[p]? = none
  found : ∀ p j : Nat, s'.found[p]? = some j ↔ s.found[p]? = some j ∨ p ∈ new ∧ j = k + 1

theorem exists_leaves (h : s.step d = some s') : ∃ q k rest new, Leaves d q k rest new s s' := by
  unfold step at h
  split at h
  · cases h
  rename_i q rest hs
  cases h
  have hq : q ∈ s.found := s.mem_found q (hs ▸ List.mem_cons_self ..)
  obtain ⟨new, hqueue, hnew⟩ := exists_queue_foldl_enter (s.found[q] + 1) (d.partners q)
    ⟨s.found, rest, fun p hp => s.mem_found p (hs ▸ List.mem_cons_of_mem _ hp)⟩
  refine ⟨q, s.found[q], rest, new, hs, Std.TreeMap.getElem?_eq_some_getElem hq, hqueue, fun p => ?_, fun p j => ?_⟩
  · rw [hnew, Device.mem_partners]
  · rw [found_foldl_enter, hnew]
    cases s.found[p]? with
    | some i => simp
    | none =>
      by_cases hp : p ∈ d.partners q <;> simp [hp, eq_comm]

namespace Leaves

variable {q k p j : Nat} {rest new : List Nat}

theorem keeps (h : Leaves d q k rest new s s') (hp : s.found[p]? = some j) : s'.found[p]? = some j :=
  (h.found p j).mpr (.inl hp)

theorem first_mem (h : Leaves d q k rest new s s') : q ∈ s.queue := h.first ▸ List.mem_cons_self ..

/-- Those that join stand one coupling further away than the node that leaves. -/
theorem eq_of_mem_new (h : Leaves d q k rest new s s') (hp : p ∈ new) (hj : s'.found[p]? = some j) : j = k + 1 := by
  rcases (h.found p j).mp hj with hold | ⟨-, he⟩
  · rw [((h.mem_new p).mp hp).2] at hold
    cases hold
  · exact he

theorem found_of_mem_rest (h : Leaves d q k rest new s s') (hp : p ∈ rest) (hj : s'.found[p]? = some j) :
    s.found[p]? = some j := by
  rcases (h.found p j).mp hj with hold | ⟨hpnew, -⟩
  · exact hold
  · have hmem : p ∈ s.found := s.mem_found p (h.first ▸ List.mem_cons_of_mem _ hp)
    have hnone := ((h.mem_new p).mp hpnew).2
    rw [Std.TreeMap.getElem?_eq_some_getElem hmem] at hnone
    cases hnone

variable (h : Leaves d q k rest new s s') (hs : s.InOrder d source)

include h hs

/-- Nothing is further away than the neighbours of the node that leaves. -/
theorem le_succ (hj : s'.found[p]? = some j) : j ≤ k + 1 := by
  rcases (h.found p j).mp hj with hold | ⟨-, rfl⟩
  · exact hs.ahead q h.first_mem k h.distance p j hold
  · exact Nat.le_refl _

theorem descends : s'.found.Descends d source := by
  constructor
  · intro p hp
    rcases (h.found p 0).mp hp with hp | ⟨-, hj⟩
    · exact hs.descends.zero p hp
    · omega
  · intro p j hp
    rcases (h.found p (j + 1)).mp hp with hp | ⟨hpnew, hj⟩
    · obtain ⟨r, hpr, hr⟩ := hs.descends.succ p j hp
      exact ⟨r, hpr, h.keeps hr⟩
    · obtain rfl : j = k := by omega
      exact ⟨q, (d.adjacent_comm p q).trans ((h.mem_new p).mp hpnew).1, h.keeps h.distance⟩

theorem sorted : s'.queue.Pairwise fun p r => ∀ i j : Nat, s'.found[p]? = some i → s'.found[r]? = some j → i ≤ j := by
  have hsorted := hs.sorted
  rw [h.first, List.pairwise_cons] at hsorted
  rw [h.queue, List.pairwise_append]
  refine ⟨?_, ?_, fun p _ r hr i j hi hj => ?_⟩
  · refine hsorted.2.imp_of_mem fun hp hr hle i j hi hj => ?_
    exact hle i j (h.found_of_mem_rest hp hi) (h.found_of_mem_rest hr hj)
  · refine List.pairwise_of_forall_mem_list fun p hp r hr i j hi hj => ?_
    rw [h.eq_of_mem_new hp hi, h.eq_of_mem_new hr hj]
  · rw [h.eq_of_mem_new hr hj]
    exact h.le_succ hs hi

theorem ahead (hp : p ∈ s'.queue) {i r : Nat} (hi : s'.found[p]? = some i) (hj : s'.found[r]? = some j) :
    j ≤ i + 1 := by
  have hsorted := hs.sorted
  rw [h.first, List.pairwise_cons] at hsorted
  rw [h.queue] at hp
  have hle : k ≤ i := by
    rcases List.mem_append.mp hp with hp | hp
    · exact hsorted.1 p hp k i h.distance (h.found_of_mem_rest hp hi)
    · rw [h.eq_of_mem_new hp hi]
      omega
  have := h.le_succ hs hj
  omega

theorem near (hj : s'.found[p]? = some j) (hout : p ∉ s'.queue) {r : Nat} (hpr : d.adjacent p r = true) :
    ∃ i ≤ j + 1, s'.found[r]? = some i := by
  rw [h.queue, List.mem_append, not_or] at hout
  obtain ⟨hnotrest, hnotnew⟩ := hout
  have hp : s.found[p]? = some j := ((h.found p j).mp hj).resolve_right fun hn => hnotnew hn.1
  by_cases e : p = q
  · -- `p` is the node that leaves the queue
    subst e
    cases h.distance.symm.trans hp
    cases hr : s.found[r]? with
    | some i => exact ⟨i, hs.ahead p h.first_mem k hp r i hr, h.keeps hr⟩
    | none => exact ⟨k + 1, Nat.le_refl _, (h.found _ _).mpr (.inr ⟨(h.mem_new r).mpr ⟨hpr, hr⟩, rfl⟩)⟩
  · have hnot : p ∉ s.queue := by
      rw [h.first, List.mem_cons, not_or]
      exact ⟨e, hnotrest⟩
    obtain ⟨i, hi, hr⟩ := hs.near p r j hp hnot hpr
    exact ⟨i, hi, h.keeps hr⟩

end Leaves

theorem inOrder_of_step (hs : s.InOrder d source) (h : s.step d = some s') : s'.InOrder d source := by
  obtain ⟨q, k, rest, new, hleaves⟩ := exists_leaves h
  exact ⟨hleaves.descends hs, hleaves.keeps hs.source, hleaves.sorted hs, fun p hp i hi r j hj =>
    hleaves.ahead hs hp hi hj, fun p r j hp hout hpr => hleaves.near hs hp hout hpr⟩

/-! ## The whole search -/

theorem queue_eq_nil_of_step (h : s.step d = none) : s.queue = [] := by
  unfold step at h
  split at h
  · assumption
  · cases h

theorem complete_run (hs : s.InOrder d source) : (s.run d).Complete d source := by
  fun_induction run d s with
  | case1 s h =>
    have hnil := queue_eq_nil_of_step h
    exact ⟨hs.descends, hs.source, fun p q j hp => hs.near p q j hp (hnil ▸ List.not_mem_nil)⟩
  | case2 s s' h _ ih => exact ih (inOrder_of_step hs h)

end Queued

namespace Device

variable {d : Device} {source : Nat}

/-- The queue finds the same distances as the rings, and for no other nodes. -/
theorem search_equiv_distancesFrom (hs : source ∈ d.nodes) :
    ∃ found, d.search source = .ok found ∧ found.Equiv (d.distancesFrom source) := by
  have hqueue := Queued.complete_run (Queued.inOrder_start d source)
  exact ⟨_, bind_eq_ok.mpr ⟨(), requireNode_eq_ok.mpr hs, rfl⟩,
    .of_forall_constGet?_eq (hqueue.getElem?_eq (complete_distancesFrom hs))⟩

theorem search_of_notMem (hs : source ∉ d.nodes) : d.search source = .error (.range (.notANode source)) :=
  bind_eq_error.mpr (.inl (requireNode_eq_error.mpr ⟨hs, rfl⟩))

/-- The neighbours of the middle of the row wait in ascending order. -/
example : ((Queued.start 3).step twoParts).map (·.queue) = some [0, 5] := by decide

end Device

end CircuitMapping
