/-
  CircuitMapping.Proofs.Device.Matrix — the table of all distances agrees with single distances and with connectedness.

  The number of a node is its position among all nodes (`getElem?_numbers`), and a row of the table starts where the
  rows before it end (`getElem?_flatMap_map`); so a place looked up is inside the table, at the entry of the two nodes
  (`exists_place`). A row holds the distances that a search from its own node finds and a single distance those of a
  search from the other one: they agree because distances are symmetric.
-/
import CircuitMapping.Device.Matrix
import CircuitMapping.Proofs.Device.ShortestPaths
import CircuitMapping.Proofs.FirstPlaces

namespace CircuitMapping

open Success

/-- Rows of equal length one after the other: entry `j` of row `i`. -/
theorem getElem?_flatMap_map {α β γ : Type} (f : α → β → γ) (xs : List α) (ys : List β) (i : Nat) {j : Nat}
    (hj : j < ys.length) :
    (xs.flatMap fun x => ys.map (f x))[i * ys.length + j]? = xs[i]?.bind fun x => ys[j]?.map (f x) := by
  induction xs generalizing i with
  | nil => simp
  | cons x xs ih =>
    rw [List.flatMap_cons]
    cases i with
    | zero =>
      rw [Nat.zero_mul, Nat.zero_add, List.getElem?_append_left (by rwa [List.length_map]), List.getElem?_map]
      rfl
    | succ i =>
      have hplace : (i + 1) * ys.length + j - ys.length = i * ys.length + j := by
        rw [Nat.succ_mul]
        omega
      rw [List.getElem?_append_right (by rw [List.length_map, Nat.succ_mul]; omega), List.length_map, hplace, ih]
      rfl

namespace DistanceMatrix

/-- The number of a node is its position. -/
theorem getElem?_numbers (ns : List Nat) (q : Nat) : (numbers ns)[q]? = ns.idxOf? q := by
  have hfill : ∀ (m : Std.TreeMap Nat Nat) (e : Nat × Nat) (q : Nat),
      (m.insertIfNew e.1 e.2)[q]? = m[q]?.or (if e.1 = q then some e.2 else none) := by
    intro m e q
    simp only [Std.TreeMap.getElem?_insertIfNew, Nat.compare_eq_eq, Std.TreeMap.mem_iff_isSome_getElem?]
    by_cases hq : e.1 = q
    · rw [hq]
      cases m[q]? <;> simp
    · simp [hq]
  refine (lookup_foldl_zipIdx (fun (m : Std.TreeMap Nat Nat) q => m[q]?) hfill ns 0 ∅ q).trans ?_
  simp

end DistanceMatrix

namespace Device

variable {d : Device} {a b : Nat}

theorem table_allPairs (d : Device) :
    d.allPairs.table = (d.nodes.flatMap fun a => d.nodes.map fun b => d.hops? b a).toArray := rfl

theorem getElem?_index (d : Device) (q : Nat) : d.allPairs.index[q]? = d.nodes.idxOf? q :=
  DistanceMatrix.getElem?_numbers d.nodes q

theorem place?_eq_none_iff : d.allPairs.place? a b = none ↔ a ∉ d.nodes ∨ b ∉ d.nodes := by
  unfold DistanceMatrix.place?
  rw [getElem?_index, getElem?_index, ← List.idxOf?_eq_none_iff, ← List.idxOf?_eq_none_iff (a := b)]
  cases d.nodes.idxOf? a <;> cases d.nodes.idxOf? b <;> simp

/-- The place of two nodes is inside the table, and their distance stands there. -/
theorem getElem?_table_of_place? {k : Nat} (h : d.allPairs.place? a b = some k) :
    k < d.allPairs.table.size ∧ d.allPairs.table[k]? = some (d.hops? b a) := by
  unfold DistanceMatrix.place? at h
  rw [getElem?_index, getElem?_index] at h
  obtain ⟨i, hi, h⟩ := Option.bind_eq_some_iff.mp h
  obtain ⟨j, hj, h⟩ := Option.bind_eq_some_iff.mp h
  obtain rfl : i * d.nodes.length + j = k := Option.some.inj h
  obtain ⟨hilt, ha, -⟩ := List.idxOf?_eq_some_iff.mp hi
  obtain ⟨hjlt, hb, -⟩ := List.idxOf?_eq_some_iff.mp hj
  have hentry : d.allPairs.table[i * d.nodes.length + j]? = some (d.hops? b a) := by
    rw [table_allPairs, List.getElem?_toArray, getElem?_flatMap_map _ _ _ _ hjlt, List.getElem?_eq_getElem hilt,
      List.getElem?_eq_getElem hjlt, ha, hb]
    rfl
  exact ⟨(Array.getElem?_eq_some_iff.mp hentry).1, hentry⟩

theorem lookup?_eq_none_iff : d.allPairs.lookup? a b = none ↔ a ∉ d.nodes ∨ b ∉ d.nodes := by
  rw [DistanceMatrix.lookup?, Option.map_eq_none_iff, place?_eq_none_iff]

theorem lookup?_eq_some_iff {x : Option Nat} : d.allPairs.lookup? a b = some x ↔ d.distance a b = .ok x := by
  have hlookup : ∀ {k}, d.allPairs.place? a b = some k → d.allPairs.lookup? a b = some (d.hops? b a) := by
    intro k hk
    rw [DistanceMatrix.lookup?, hk, Option.map_some, getElem!_def, (getElem?_table_of_place? hk).2]
  rw [distance_eq_ok]
  cases hk : d.allPairs.place? a b with
  | none =>
    have hn := place?_eq_none_iff.mp hk
    rw [lookup?_eq_none_iff.mpr hn]
    constructor
    · intro h; cases h
    · rintro ⟨ha, hb, -⟩
      exact absurd hn (not_or_intro (not_not_intro ha) (not_not_intro hb))
  | some k =>
    have hm : a ∈ d.nodes ∧ b ∈ d.nodes := by
      by_contra hn
      rw [place?_eq_none_iff.mpr (not_and_or.mp hn)] at hk
      cases hk
    rw [hlookup hk, hops?_comm hm.2 hm.1, Option.some.injEq]
    exact ⟨fun h => ⟨hm.1, hm.2, h⟩, fun h => h.2.2⟩

/-- A device is connected when every two of its nodes have a distance. -/
theorem isConnected_iff_distance :
    d.isConnected = true ↔ ∀ a ∈ d.nodes, ∀ b ∈ d.nodes, ∃ k, d.distance a b = .ok (some k) := by
  rw [isConnected_iff]
  refine forall₂_congr fun a ha => forall₂_congr fun b hb => ?_
  constructor
  · intro h
    obtain ⟨k, hk⟩ := exists_hops?_of_linked hb h
    exact ⟨k, distance_eq_ok.mpr ⟨ha, hb, hk⟩⟩
  · rintro ⟨k, h⟩
    exact linked_of_hops? (distance_eq_ok.mp h).2.2

variable {σ : Type} [Source σ]

theorem isConnected_iff_shortestPath (s : σ) :
    d.isConnected = true ↔ ∀ a b p q, d.shortestPath a b s ≠ .error (.noPath p q) := by
  rw [isConnected_iff]
  constructor
  · intro h a b p q hpath
    rcases shortestPath_eq_error hpath with ⟨r, -, -, he⟩ | ⟨ha, hb, hl, -⟩
    · cases he
    · exact hl (h a ha b hb)
  · intro h a ha b hb
    by_contra hl
    exact h a b a b (shortestPath_of_not_linked ha hb hl s)

/-- The table of all distances and connectedness agree with single distances and paths: a place looked up is inside
    the table, what stands there is the distance of the two nodes, and only what is not a node is refused; a device is
    connected exactly when every two nodes have a distance, and exactly when no path is refused for lack of a way,
    whatever is drawn. -/
theorem allPairs_agree_with_distance (d : Device) :
    (∀ a ∈ d.nodes, ∀ b ∈ d.nodes, ∃ k x, d.allPairs.place? a b = some k ∧ k < d.allPairs.table.size ∧
      d.allPairs.table[k]? = some x ∧ d.allPairs.lookup? a b = some x ∧ d.distance a b = .ok x) ∧
    (∀ a b, d.allPairs.lookup? a b = none ↔ a ∉ d.nodes ∨ b ∉ d.nodes) ∧
    (∀ a b, (DistanceTable.ofDevice d).lookup? a b = d.allPairs.lookup? a b) ∧
    (d.isConnected = true ↔ ∀ a ∈ d.nodes, ∀ b ∈ d.nodes, ∃ k, d.distance a b = .ok (some k)) ∧
    ∀ (σ : Type) [Source σ] (s : σ),
      d.isConnected = true ↔ ∀ a b p q, d.shortestPath a b s ≠ .error (.noPath p q) := by
  refine ⟨?_, fun _ _ => lookup?_eq_none_iff, ?_, isConnected_iff_distance,
    fun _ _ s => isConnected_iff_shortestPath s⟩
  · intro a ha b hb
    have hdistance : d.distance a b = .ok (d.hops? b a) := distance_eq_ok.mpr ⟨ha, hb, hops?_comm ha hb⟩
    obtain ⟨k, hk⟩ : ∃ k, d.allPairs.place? a b = some k := by
      refine Option.ne_none_iff_exists'.mp fun hn => ?_
      rcases place?_eq_none_iff.mp hn with hn | hn
      · exact hn ha
      · exact hn hb
    obtain ⟨hlt, hentry⟩ := getElem?_table_of_place? hk
    exact ⟨k, _, hk, hlt, hentry, lookup?_eq_some_iff.mpr hdistance, hdistance⟩
  · intro a b
    rw [DistanceTable.lookup?_ofDevice]
    split
    · rename_i hm
      exact (lookup?_eq_some_iff.mpr (distance_eq_ok.mpr ⟨hm.1, hm.2, hops?_comm hm.1 hm.2⟩)).symm
    · rename_i hn
      exact (lookup?_eq_none_iff.mpr (not_and_or.mp hn)).symm

/-- In the table of five nodes the ends of the row stand at place 2, and those of different parts have an entry without
    a distance; the number between two nodes is not a node. -/
theorem allPairs_agree_with_distance_twoParts :
    (0 ∈ twoParts.nodes ∧ 5 ∈ twoParts.nodes ∧ 8 ∈ twoParts.nodes) ∧
    twoParts.allPairs.place? 0 5 = some 2 ∧ twoParts.allPairs.lookup? 0 5 = some (some 2) ∧
    (∃ k x, twoParts.allPairs.place? 0 5 = some k ∧ k < twoParts.allPairs.table.size ∧
      twoParts.allPairs.table[k]? = some x ∧ twoParts.allPairs.lookup? 0 5 = some x ∧ twoParts.distance 0 5 = .ok x) ∧
    twoParts.allPairs.lookup? 0 8 = some none ∧ twoParts.allPairs.lookup? 0 4 = none ∧
    ¬ twoParts.isConnected = true ∧
    ∃ a b p q, twoParts.shortestPath a b Lowest.mk = .error (.noPath p q) := by
  have hm : 0 ∈ twoParts.nodes ∧ 5 ∈ twoParts.nodes ∧ 8 ∈ twoParts.nodes := by decide
  have happart : ¬ twoParts.isConnected = true := by decide +kernel
  obtain ⟨hplace, hnone, -, -, hpath⟩ := allPairs_agree_with_distance twoParts
  rw [hpath Lowest Lowest.mk] at happart
  push Not at happart
  exact ⟨hm, by decide +kernel, by decide +kernel, hplace 0 hm.1 5 hm.2.1, by decide +kernel,
    (hnone 0 4).mpr (.inr (by decide)), by decide +kernel, happart⟩

end Device

end CircuitMapping
