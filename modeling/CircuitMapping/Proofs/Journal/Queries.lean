/-
  CircuitMapping.Proofs.Journal.Queries — what a journal answers, and what it answers when more is written to it.

  A journal is read backwards for its newest entries, and forwards for the history of a metric. All answers are told by
  the entries alone (`answers`): the newest record of a pass, or with a final layout, is one behind which there is no
  other (`IsNewest`), and the newest value of a metric is the last of its history. The histories of all keys together
  are the metrics: each metric has its place in the history of one key, and a history tells the values at its places in
  order (`isPartition_historyPlaces`).

  What is written later stands behind what was there, as one journal behind another (`j ++ newer`). A query asks the
  newer one first, and the older one only if that has no answer (`newestFirst`).
-/
import CircuitMapping.Journal.Basic
import Mathlib.Data.List.Forall2

namespace CircuitMapping

/-! ## The newest of a list -/

/-- An element of a list that has a property and behind which no other has it. -/
def IsNewest {α : Type} (P : α → Prop) (as : List α) (a : α) : Prop :=
  ∃ older newer, as = older ++ a :: newer ∧ P a ∧ ∀ x ∈ newer, ¬P x

section

variable {α β : Type} {P : α → Prop} {as : List α} {a : α}

/-- Read backwards, the newest element is the first one with the property. -/
theorem isNewest_iff_reverse :
    IsNewest P as a ↔ ∃ newer older, as.reverse = newer ++ a :: older ∧ P a ∧ ∀ x ∈ newer, ¬P x := by
  constructor
  · rintro ⟨older, newer, rfl, ha, hnewer⟩
    exact ⟨newer.reverse, older.reverse, by simp, ha, fun x hx => hnewer x (List.mem_reverse.mp hx)⟩
  · rintro ⟨newer, older, has, ha, hnewer⟩
    rw [List.reverse_eq_append_iff] at has
    exact ⟨older.reverse, newer.reverse, by simpa using has, ha, fun x hx => hnewer x (List.mem_reverse.mp hx)⟩

theorem find?_reverse_eq_some_iff {p : α → Bool} :
    as.reverse.find? p = some a ↔ IsNewest (fun x => p x = true) as a := by
  rw [List.find?_eq_some_iff_append, isNewest_iff_reverse]
  simp only [Bool.not_eq_true', Bool.not_eq_true]
  exact ⟨fun ⟨ha, newer, older, has, hnewer⟩ => ⟨newer, older, has, ha, hnewer⟩,
    fun ⟨newer, older, has, ha, hnewer⟩ => ⟨ha, newer, older, has, hnewer⟩⟩

theorem findSome?_reverse_eq_some_iff {f : α → Option β} {b : β} :
    as.reverse.findSome? f = some b ↔ ∃ a, IsNewest (fun x => f x ≠ none) as a ∧ f a = some b := by
  rw [List.findSome?_eq_some_iff]
  constructor
  · rintro ⟨newer, a, older, has, ha, hnewer⟩
    exact ⟨a, isNewest_iff_reverse.mpr ⟨newer, older, has, by simp [ha], by simpa using hnewer⟩, ha⟩
  · rintro ⟨a, hnewest, ha⟩
    obtain ⟨newer, older, has, -, hnewer⟩ := isNewest_iff_reverse.mp hnewest
    exact ⟨newer, a, older, has, ha, by simpa using hnewer⟩

end

namespace Journal

variable {j : Journal} {key : String}

/-! ## Histories -/

/-- The places of the metrics of a key. -/
def historyPlaces (j : Journal) (key : String) : List Nat :=
  (j.metrics.zipIdx.filter fun m => m.1.1 == key).map (·.2)

/-- How the metrics fall into the histories of their keys: each has its place in the history of one key, and every
    history tells the values at its places in order. -/
structure IsPartition (j : Journal) (places : String → List Nat) : Prop where
  ascending : ∀ key, (places key).Pairwise (· < ·)
  tells : ∀ key, List.Forall₂ (fun i value => j.metrics[i]? = some (key, value)) (places key) (j.history key)
  one : ∀ i < j.metrics.length, ∃! key, i ∈ places key

theorem mem_historyPlaces {i : Nat} : i ∈ j.historyPlaces key ↔ ∃ value, j.metrics[i]? = some (key, value) := by
  constructor
  · intro h
    obtain ⟨m, hm, rfl⟩ := List.mem_map.mp h
    obtain ⟨hmem, hkey⟩ := List.mem_filter.mp hm
    obtain rfl := beq_iff_eq.mp hkey
    exact ⟨m.1.2, List.mem_zipIdx_iff_getElem?.mp hmem⟩
  · rintro ⟨value, hvalue⟩
    refine List.mem_map.mpr ⟨((key, value), i), List.mem_filter.mpr ⟨?_, beq_self_eq_true key⟩, rfl⟩
    exact List.mem_zipIdx_iff_getElem?.mpr hvalue

theorem history_eq (j : Journal) (key : String) :
    j.history key = (j.metrics.zipIdx.filter fun m => m.1.1 == key).map (·.1.2) := by
  conv_lhs => rw [history, ← List.zipIdx_map_fst 0 j.metrics, List.filter_map, List.map_map]
  rfl

theorem isPartition_historyPlaces (j : Journal) : j.IsPartition j.historyPlaces where
  ascending key := by
    have hplaces : (j.historyPlaces key).Sublist (List.range' 0 j.metrics.length) := by
      rw [← List.zipIdx_map_snd 0 j.metrics]
      exact List.filter_sublist.map _
    exact List.Pairwise.sublist hplaces List.pairwise_lt_range'
  tells key := by
    rw [history_eq, historyPlaces, List.forall₂_map_left_iff, List.forall₂_map_right_iff, List.forall₂_same]
    intro m hm
    obtain ⟨hmem, hkey⟩ := List.mem_filter.mp hm
    rw [← beq_iff_eq.mp hkey]
    exact List.mem_zipIdx_iff_getElem?.mp hmem
  one i hi := by
    refine ⟨j.metrics[i].1, mem_historyPlaces.mpr ⟨j.metrics[i].2, List.getElem?_eq_getElem hi⟩, fun key hkey => ?_⟩
    obtain ⟨value, hvalue⟩ := mem_historyPlaces.mp hkey
    rw [List.getElem?_eq_getElem hi] at hvalue
    rw [Option.some.inj hvalue]

/-! ## Answers -/

/-- What a journal answers, told by its entries. -/
structure Answers (j : Journal) : Prop where
  latest : ∀ pass r, j.latest pass = some r ↔ IsNewest (fun r => r.pass = pass) j.records r
  no_latest : ∀ pass, j.latest pass = none ↔ ∀ r ∈ j.records, r.pass ≠ pass
  metric : ∀ key, j.metric key = (j.history key).getLast?
  no_metric : ∀ key, j.metric key = none ↔ j.history key = []
  histories : ∃ places, j.IsPartition places
  finalLayout : ∀ l, j.finalLayout = some l ↔ ∃ r, IsNewest (fun r => r.final ≠ none) j.records r ∧ r.final = some l
  no_finalLayout : j.finalLayout = none ↔ ∀ r ∈ j.records, r.final = none

theorem metric_eq_getLast? (j : Journal) (key : String) : j.metric key = (j.history key).getLast? := by
  rw [metric, history, List.getLast?_map, List.getLast?_filter]

theorem answers (j : Journal) : Answers j where
  latest pass r := by
    rw [latest, find?_reverse_eq_some_iff]
    simp only [beq_iff_eq]
  no_latest pass := by simp [latest]
  metric := metric_eq_getLast? j
  no_metric key := by rw [metric_eq_getLast?, List.getLast?_eq_none_iff]
  histories := ⟨j.historyPlaces, isPartition_historyPlaces j⟩
  finalLayout l := findSome?_reverse_eq_some_iff
  no_finalLayout := by simp [finalLayout]

/-! ## One journal behind another -/

/-- The entries of a journal with those of a newer one behind them. -/
instance : Append Journal := ⟨fun j newer => ⟨j.records ++ newer.records, j.metrics ++ newer.metrics⟩⟩

theorem append_eq (j newer : Journal) : j ++ newer = ⟨j.records ++ newer.records, j.metrics ++ newer.metrics⟩ := rfl

theorem append_record (j : Journal) (r : Record) : j ++ ⟨[r], []⟩ = ⟨j.records ++ [r], j.metrics⟩ := by simp [append_eq]

theorem append_metric (j : Journal) (m : String × Int) : j ++ ⟨[], [m]⟩ = ⟨j.records, j.metrics ++ [m]⟩ := by
  simp [append_eq]

theorem append_empty (j : Journal) : j ++ empty = j := by simp [append_eq, empty]

theorem append_assoc (j k l : Journal) : j ++ k ++ l = j ++ (k ++ l) := by simp [append_eq]

/-- What a journal answers when a newer one stands behind it: that answers first. -/
structure NewestFirst (j newer : Journal) : Prop where
  latest : ∀ pass, (j ++ newer).latest pass = (newer.latest pass).or (j.latest pass)
  metric : ∀ key, (j ++ newer).metric key = (newer.metric key).or (j.metric key)
  history : ∀ key, (j ++ newer).history key = j.history key ++ newer.history key
  finalLayout : (j ++ newer).finalLayout = newer.finalLayout.or j.finalLayout

theorem newestFirst (j newer : Journal) : NewestFirst j newer where
  latest pass := by simp [latest, append_eq, List.find?_append]
  metric key := by simp [metric, append_eq, List.find?_append, Option.map_or]
  history key := by simp [history, append_eq]
  finalLayout := by simp [finalLayout, append_eq, List.findSome?_append]

end Journal

end CircuitMapping
