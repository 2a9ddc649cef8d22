/-
  CircuitMapping.Device.Distance — how many couplings lie between two qubits of a device.

  The search goes out from one node in rings: ring `k + 1` holds the nodes not reached yet that are coupled to a node
  of ring `k`. As many rounds as there are nodes reach all that can be reached. Nodes in another component have no
  distance. `DistanceTable` holds the distances of all pairs of nodes for a search that asks for many.

  Proved: entering a ring gives its distance to exactly the nodes that had none (`found_foldl_enter`), and these are the
  new front (`mem_front_foldl_enter`); the table has a distance for a pair of nodes where the search from the first
  finds one, and nothing for other qubits (`DistanceTable.lookup?_ofDevice`).
-/
import CircuitMapping.Device.Links

namespace CircuitMapping

/-- The distances from one node of all that can be reached. -/
abbrev Distances : Type := Std.TreeMap Nat Nat

/-- A search under way: the distances found, and the nodes of the outermost ring. -/
structure Spread where
  found : Distances
  front : List Nat

namespace Spread

/-- Ring 0 alone. -/
def start (source : Nat) : Spread := ⟨(∅ : Distances).insert source 0, [source]⟩

/-- Puts a node at distance `k` into the front, unless it has been reached. -/
def enter (k : Nat) (s : Spread) (q : Nat) : Spread :=
  if s.found.contains q then s else ⟨s.found.insert q k, q :: s.front⟩

/-- The search with its front moved out to ring `k`. -/
def expand (l : Links) (k : Nat) (s : Spread) : Spread :=
  (s.front.flatMap l.partners).foldl (enter k) ⟨s.found, []⟩

/-- Moves out to rings `k`, `k + 1`, …, one per round. -/
def rings (l : Links) : Nat → Nat → Spread → Spread
  | 0, _, s => s
  | rounds + 1, k, s => rings l rounds (k + 1) (s.expand l k)

theorem found_enter (k : Nat) (s : Spread) (q p : Nat) :
    (s.enter k q).found[p]? = s.found[p]?.or (if p = q then some k else none) := by
  unfold enter
  split
  · rename_i h
    by_cases e : p = q
    · rw [Std.TreeMap.contains_eq_isSome_getElem?, ← e] at h
      obtain ⟨j, hj⟩ := Option.isSome_iff_exists.mp h
      simp [hj]
    · simp [e]
  · rename_i h
    simp only [Std.TreeMap.getElem?_insert, Nat.compare_eq_eq]
    by_cases e : q = p
    · have hn : s.found[p]? = none := by
        rw [Std.TreeMap.contains_eq_isSome_getElem?, e] at h
        simpa using h
      simp [e, hn]
    · simp [e, Ne.symm e]

theorem found_foldl_enter (k : Nat) (qs : List Nat) (s : Spread) (p : Nat) :
    (qs.foldl (enter k) s).found[p]? = s.found[p]?.or (if p ∈ qs then some k else none) := by
  induction qs generalizing s with
  | nil => simp
  | cons q qs ih =>
    rw [List.foldl_cons, ih, found_enter]
    cases s.found[p]? with
    | some j => rfl
    | none =>
      by_cases e : p = q <;> simp [e]

theorem mem_front_enter {k : Nat} {s : Spread} {q p : Nat} :
    p ∈ (s.enter k q).front ↔ p ∈ s.front ∨ p = q ∧ s.found[p]? = none := by
  unfold enter
  split
  · rename_i h
    rw [Std.TreeMap.contains_eq_isSome_getElem?] at h
    refine ⟨.inl, fun hp => hp.elim id ?_⟩
    rintro ⟨rfl, hn⟩
    simp [hn] at h
  · rename_i h
    rw [Std.TreeMap.contains_eq_isSome_getElem?] at h
    simp only [List.mem_cons]
    constructor
    · rintro (rfl | hp)
      · exact .inr ⟨rfl, by simpa using h⟩
      · exact .inl hp
    · rintro (hp | ⟨hp, _⟩)
      · exact .inr hp
      · exact .inl hp

theorem mem_front_foldl_enter {k : Nat} {qs : List Nat} {s : Spread} {p : Nat} :
    p ∈ (qs.foldl (enter k) s).front ↔ p ∈ s.front ∨ p ∈ qs ∧ s.found[p]? = none := by
  induction qs generalizing s with
  | nil => simp
  | cons q qs ih =>
    rw [List.foldl_cons, ih, mem_front_enter, found_enter, List.mem_cons]
    by_cases e : p = q <;> by_cases hn : s.found[p]? = none <;> simp [e, hn]

end Spread

/-- The distances from `source` of the nodes at most `rounds` couplings away. -/
def Links.distancesFrom (l : Links) (rounds source : Nat) : Distances :=
  (Spread.rings l rounds 1 (.start source)).found

namespace Device

/-- The distances from `source` of all nodes that can be reached. -/
def distancesFrom (d : Device) (source : Nat) : Distances := d.links.distancesFrom d.nodes.length source

/-- The number of couplings on a shortest way from `a` to `b`. -/
def hops? (d : Device) (a b : Nat) : Option Nat := (d.distancesFrom b)[a]?

/-- The distance of two nodes; `none` when they are in different components. -/
def distance (d : Device) (a b : Nat) : Except Error (Option Nat) := do
  d.requireNode b
  d.requireNode a
  return d.hops? a b

/-- Every node can be reached from the lowest one. -/
def isConnected (d : Device) : Bool :=
  match d.nodes with
  | [] => true
  | q :: _ => (d.distancesFrom q).size == d.nodes.length

end Device

/-- The distances of all pairs of nodes: for each node, those of the nodes that it reaches. -/
structure DistanceTable where
  rows : Std.TreeMap Nat Distances

namespace DistanceTable

def ofDevice (d : Device) : DistanceTable :=
  let l := d.links
  ⟨.ofList (d.nodes.map fun a => (a, l.distancesFrom d.nodes.length a))⟩

/-- The number of nodes. -/
def size (t : DistanceTable) : Nat := t.rows.size

/-- The distance of two nodes; `none` when one is not a node. -/
def lookup? (t : DistanceTable) (a b : Nat) : Option (Option Nat) :=
  if t.rows.contains b then t.rows[a]?.map fun row => row[b]? else none

/-- A row for each node and in it an entry for each node, in ascending order. -/
def toLists (t : DistanceTable) : List (List (Option Nat)) :=
  t.rows.values.map fun row => t.rows.keys.map fun b => row[b]?

theorem rows_ofDevice (d : Device) (a : Nat) :
    (ofDevice d).rows[a]? = if a ∈ d.nodes then some (d.distancesFrom a) else none := by
  have hd : (d.nodes.map fun a => (a, d.distancesFrom a)).Pairwise fun x y => ¬ compare x.1 y.1 = .eq :=
    List.pairwise_map.mpr (d.nodes_ascending.imp fun h e => by rw [Nat.compare_eq_eq] at e; omega)
  change (Std.TreeMap.ofList (d.nodes.map fun a => (a, d.distancesFrom a)) compare)[a]? = _
  split
  · rename_i h
    exact Std.TreeMap.getElem?_ofList_of_mem (Nat.compare_eq_eq.mpr rfl) hd (List.mem_map.mpr ⟨a, h, rfl⟩)
  · rename_i h
    refine Std.TreeMap.getElem?_ofList_of_contains_eq_false ?_
    simpa using h

theorem lookup?_ofDevice (d : Device) (a b : Nat) :
    (ofDevice d).lookup? a b = if a ∈ d.nodes ∧ b ∈ d.nodes then some (d.distancesFrom a)[b]? else none := by
  unfold lookup?
  rw [Std.TreeMap.contains_eq_isSome_getElem?, rows_ofDevice, rows_ofDevice]
  by_cases ha : a ∈ d.nodes <;> by_cases hb : b ∈ d.nodes <;> simp [ha, hb]

end DistanceTable

end CircuitMapping
