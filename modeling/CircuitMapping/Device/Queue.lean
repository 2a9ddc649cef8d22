/-
  CircuitMapping.Device.Queue — the search for distances, one node after another.

  Nodes that have been found wait in a queue until their neighbours are looked at. The first one in the queue leaves it;
  those of its neighbours that have not been found get one more than its own distance and join the queue at its end, in
  ascending order. The search is over when nobody waits; there are no rounds to count.

  Proved: looking at neighbours gives a distance to those that had none, and these join the queue
  (`found_foldl_enter`, `exists_queue_foldl_enter`). A node that joins is one less to be found, so `left` goes down with
  every step (`left_lt_of_step`) and the search ends.
-/
import CircuitMapping.Device.Distance

namespace CircuitMapping

/-- A search under way: the distances found, and the nodes whose neighbours have not been looked at, in the order in
    which they were found. -/
structure Queued where
  found : Distances
  queue : List Nat
  mem_found : ∀ q ∈ queue, q ∈ found

namespace Queued

/-- The source alone. -/
def start (source : Nat) : Queued where
  found := (∅ : Distances).insert source 0
  queue := [source]
  mem_found q hq := by simp [List.mem_singleton.mp hq]

/-- Gives a node distance `k` and the last place in the queue, unless it has been found. -/
def enter (k : Nat) (s : Queued) (q : Nat) : Queued :=
  if s.found.contains q then s
  else
    { found := s.found.insert q k
      queue := s.queue ++ [q]
      mem_found := fun p hp => by
        rw [Std.TreeMap.mem_insert, Nat.compare_eq_eq]
        rcases List.mem_append.mp hp with hp | hp
        · exact .inr (s.mem_found p hp)
        · exact .inl (List.mem_singleton.mp hp).symm }

/-- Looks at the neighbours of the first node in the queue; `none` when nobody waits. -/
def step (d : Device) (s : Queued) : Option Queued :=
  match hs : s.queue with
  | [] => none
  | q :: rest =>
    let k := s.found.get q (s.mem_found q (hs ▸ List.mem_cons_self ..))
    let others : Queued := ⟨s.found, rest, fun p hp => s.mem_found p (hs ▸ List.mem_cons_of_mem _ hp)⟩
    some ((d.partners q).foldl (enter (k + 1)) others)

/-! ## Looking at neighbours -/

/-- The same search with its queue as the front. -/
def spread (s : Queued) : Spread := ⟨s.found, s.queue.reverse⟩

theorem spread_enter (k : Nat) (s : Queued) (q : Nat) : (s.enter k q).spread = s.spread.enter k q := by
  by_cases h : s.found.contains q <;> simp [enter, Spread.enter, spread, h]

theorem spread_foldl_enter (k : Nat) (qs : List Nat) (s : Queued) :
    (qs.foldl (enter k) s).spread = qs.foldl (Spread.enter k) s.spread := by
  induction qs generalizing s with
  | nil => rfl
  | cons q qs ih => rw [List.foldl_cons, List.foldl_cons, ih, spread_enter]

theorem found_foldl_enter (k : Nat) (qs : List Nat) (s : Queued) (p : Nat) :
    (qs.foldl (enter k) s).found[p]? = s.found[p]?.or (if p ∈ qs then some k else none) := by
  have h := Spread.found_foldl_enter k qs s.spread p
  rwa [← spread_foldl_enter] at h

theorem exists_queue_enter (k : Nat) (s : Queued) (q : Nat) :
    ∃ new, (s.enter k q).queue = s.queue ++ new ∧ ∀ p, p ∈ new ↔ p = q ∧ s.found[p]? = none := by
  unfold enter
  split
  · rename_i h
    refine ⟨[], (List.append_nil _).symm, fun p => iff_of_false (List.not_mem_nil) ?_⟩
    rintro ⟨rfl, hn⟩
    rw [Std.TreeMap.contains_eq_isSome_getElem?, hn] at h
    cases h
  · rename_i h
    refine ⟨[q], rfl, fun p => List.mem_singleton.trans ⟨?_, And.left⟩⟩
    rintro rfl
    exact ⟨rfl, Std.TreeMap.getElem?_eq_none (mt Std.TreeMap.contains_iff_mem.mpr h)⟩

theorem exists_queue_foldl_enter (k : Nat) (qs : List Nat) (s : Queued) :
    ∃ new, (qs.foldl (enter k) s).queue = s.queue ++ new ∧ ∀ p, p ∈ new ↔ p ∈ qs ∧ s.found[p]? = none := by
  induction qs generalizing s with
  | nil => exact ⟨[], (List.append_nil _).symm, by simp⟩
  | cons q qs ih =>
    obtain ⟨first, hfirst, hq⟩ := exists_queue_enter k s q
    obtain ⟨others, hothers, hqs⟩ := ih (s.enter k q)
    refine ⟨first ++ others, by rw [List.foldl_cons, hothers, hfirst, List.append_assoc], fun p => ?_⟩
    have hp : (s.enter k q).found[p]? = s.found[p]?.or (if p ∈ [q] then some k else none) :=
      found_foldl_enter k [q] s p
    simp only [List.mem_append, hq, hqs, hp, List.mem_cons, List.not_mem_nil, or_false]
    by_cases e : p = q <;> by_cases hn : s.found[p]? = none <;> simp [e, hn]

/-! ## Until nobody waits -/

/-- The nodes that have not been found. -/
def unfound (d : Device) (s : Queued) : List Nat := d.nodes.filter fun p => s.found[p]?.isNone

/-- Every node to be found may still join the queue, and every node in the queue is still to leave it. -/
def left (d : Device) (s : Queued) : Nat := 2 * (s.unfound d).length + s.queue.length

theorem left_enter_le {d : Device} {q : Nat} (hq : q ∈ d.nodes) (k : Nat) (s : Queued) :
    (s.enter k q).left d ≤ s.left d := by
  unfold enter
  split
  · exact Nat.le_refl _
  · rename_i h
    have hn : s.found[q]? = none := Std.TreeMap.getElem?_eq_none (mt Std.TreeMap.contains_iff_mem.mpr h)
    have hunfound : d.nodes.filter (fun p => (s.found.insert q k)[p]?.isNone) =
        (s.unfound d).filter fun p => p ≠ q := by
      rw [unfound, List.filter_filter]
      refine List.filter_congr fun p _ => ?_
      simp only [Std.TreeMap.getElem?_insert, Nat.compare_eq_eq]
      by_cases e : q = p <;> simp [e, Ne.symm]
    have hless : ((s.unfound d).filter fun p => p ≠ q).length < (s.unfound d).length :=
      List.length_filter_lt_length_iff_exists.mpr ⟨q, List.mem_filter.mpr ⟨hq, by simp [hn]⟩, by simp⟩
    show 2 * (d.nodes.filter fun p => (s.found.insert q k)[p]?.isNone).length + (s.queue ++ [q]).length ≤ _
    rw [hunfound, List.length_append, List.length_singleton, left]
    omega

theorem left_foldl_enter_le {d : Device} {qs : List Nat} (hqs : ∀ q ∈ qs, q ∈ d.nodes) (k : Nat) (s : Queued) :
    (qs.foldl (enter k) s).left d ≤ s.left d := by
  induction qs generalizing s with
  | nil => exact Nat.le_refl _
  | cons q qs ih =>
    have hrest := ih (fun p hp => hqs p (List.mem_cons_of_mem _ hp)) (s.enter k q)
    exact Nat.le_trans hrest (left_enter_le (hqs q (List.mem_cons_self ..)) k s)

theorem left_lt_of_step {d : Device} {s s' : Queued} (h : s.step d = some s') : s'.left d < s.left d := by
  unfold step at h
  split at h
  · cases h
  · rename_i q rest hs
    cases h
    have hnodes : ∀ p ∈ d.partners q, p ∈ d.nodes := fun p hp =>
      (Device.mem_nodes_of_adjacent (Device.mem_partners.mp hp)).2
    refine Nat.lt_of_le_of_lt (left_foldl_enter_le hnodes _ _) ?_
    show 2 * (s.unfound d).length + rest.length < 2 * (s.unfound d).length + s.queue.length
    rw [hs, List.length_cons]
    omega

/-- The distances when nobody waits. -/
def run (d : Device) (s : Queued) : Distances :=
  match h : s.step d with
  | none => s.found
  | some s' =>
    have : s'.left d < s.left d := left_lt_of_step h
    run d s'
termination_by s.left d

end Queued

/-- The distances from a node of all that can be reached, found one after another. -/
def Device.search (d : Device) (source : Nat) : Except Error Distances := do
  d.requireNode source
  return Queued.run d (.start source)

end CircuitMapping
