/-
  CircuitMapping.Proofs.Layout.Bijection — the two tables of a layout stay each other's inverse.

  Filling the tables finds every physical qubit that is listed more than once (`mem_repeats_foldl_seat`), so they are
  built exactly from lists of distinct qubits, and otherwise the repeated ones are reported, ascending and once each
  (`ofList_eq`). What is built are the tables of a layout, and SWAPs keep them so (`swap_tables`, `swapAll_tables`),
  whichever qubits they name. The tables of a layout are each other's inverse (`inverse_tables`): whoever is found on a
  physical qubit has it as its place, so no occupant is left behind when it moves on. Two layouts with the same places
  have the same occupants, though these are never compared.
-/
import Mathlib.Data.List.Nodup
import CircuitMapping.Proofs.FirstPlaces
import CircuitMapping.Proofs.Layout.Tables

namespace CircuitMapping.Layout

variable {ps : List Nat}

namespace Tables

/-! ## Filling the tables -/

theorem occupants_seat (s : (Nat → Option Nat) × List Nat) (e : Nat × Nat) (q : Nat) :
    (seat s e).1 q = (s.1 q).or (if e.1 = q then some e.2 else none) := by
  unfold seat
  by_cases hq : e.1 = q
  · subst hq
    cases h : s.1 e.1 <;> simp [h]
  · cases s.1 e.1 <;> simp [hq, Ne.symm hq]

theorem occupants_foldl_seat (ps : List Nat) (q : Nat) :
    (ps.zipIdx.foldl seat (fun _ => none, [])).1 q = ps.idxOf? q := by
  refine (lookup_foldl_zipIdx (fun s q => s.1 q) occupants_seat ps 0 (fun _ => none, []) q).trans ?_
  simp

/-- A qubit is repeated when it is listed twice, or once and had an occupant before. -/
theorem mem_repeats_foldl_seat (ps : List Nat) (k : Nat) (s : (Nat → Option Nat) × List Nat) (q : Nat) :
    q ∈ ((ps.zipIdx k).foldl seat s).2 ↔ q ∈ s.2 ∨ q ∈ ps ∧ (s.1 q ≠ none ∨ 1 < ps.count q) := by
  induction ps generalizing k s with
  | nil => simp
  | cons p ps ih =>
    rw [List.zipIdx_cons, List.foldl_cons, ih, occupants_seat, List.mem_cons]
    have hrepeats : q ∈ (seat s (p, k)).2 ↔ q ∈ s.2 ∨ q = p ∧ s.1 q ≠ none := by
      unfold seat
      cases h : s.1 p with
      | none => grind
      | some i => grind
    rw [hrepeats]
    by_cases hq : q = p
    · subst hq
      -- listed once more: an occupant was there before, or is there for the rest of the list
      rw [List.count_cons_self]
      cases s.1 q with
      | none => simp
      | some i => simp
    · rw [List.count_cons_of_ne (Ne.symm hq)]
      simp [hq, Ne.symm hq]

theorem ascending_repeats (ps : List Nat) :
    Ascending.ofList (ps.zipIdx.foldl seat (fun _ => none, [])).2 = repeated ps := by
  refine Ascending.eq_of_mem_iff (Ascending.ofList_ascending _) (Ascending.ofList_ascending _) fun q => ?_
  rw [Ascending.mem_ofList, mem_repeats_foldl_seat, mem_repeated]
  simp only [List.not_mem_nil, ne_eq, not_true_eq_false, false_or, and_iff_right_iff_imp]
  exact fun h => List.count_pos_iff.mp (Nat.zero_lt_of_lt h)

/-- Tables are built from the lists from which a layout is built, and refused with the same report. -/
theorem ofList_eq (ps : List Nat) : ofList ps = (Layout.ofList ps).map Layout.tables := by
  have hnil : (ps.zipIdx.foldl seat (fun _ => none, [])).2 = [] ↔ ps.Nodup := by
    rw [List.eq_nil_iff_forall_not_mem, List.nodup_iff_count_le_one]
    simp only [mem_repeats_foldl_seat, List.not_mem_nil, ne_eq, not_true_eq_false, false_or, not_and, Nat.not_lt]
    exact forall_congr' fun q => ⟨fun h => Decidable.byContradiction fun hn =>
      hn (h (List.count_pos_iff.mp (by omega))), fun h _ => h⟩
  unfold ofList Layout.ofList
  dsimp only
  rw [ascending_repeats]
  split
  · rename_i h
    have hseated : (ps.zipIdx.foldl seat (fun _ => none, [])).1 = fun q => ps.idxOf? q :=
      funext (occupants_foldl_seat ps)
    rw [dif_pos (hnil.mp (List.isEmpty_iff.mp h)), hseated]
    rfl
  · rename_i h
    rw [dif_neg fun hn => h (List.isEmpty_iff.mpr (hnil.mpr hn))]
    rfl

/-! ## Tables that are each other's inverse -/

/-- No two logical qubits share a physical one, and whoever is found on a physical qubit has it as its place. -/
structure Inverse (t : Tables) : Prop where
  injective : ∀ i j p, t.physical i = .ok p → t.physical j = .ok p → i = j
  occupants : ∀ p i, t.occupants p = some i ↔ t.physical i = .ok p

/-- Tables that were built from a list and have been through any SWAPs. -/
def Reached (t : Tables) : Prop := ∃ ps t₀ swaps, ofList ps = .ok t₀ ∧ t = t₀.swapAll swaps

end Tables

theorem physical_tables (l : Layout) (i : Nat) : l.tables.physical i = l.physical i := rfl

theorem inverse_tables (l : Layout) : l.tables.Inverse where
  injective i j p hi hj := by
    rw [physical_tables, physical_eq_ok] at hi hj
    exact placement_injective hi hj
  occupants p i := by
    rw [physical_tables, physical_eq_ok]
    exact logical_eq_some

theorem size_swapAll (l : Layout) (swaps : List (Nat × Nat)) : (l.swapAll swaps).size = l.size := by
  induction swaps generalizing l with
  | nil => rfl
  | cons s swaps ih =>
    refine (ih (l.swap s.1 s.2)).trans ?_
    rw [size, placement_swap, List.length_map]
    rfl

namespace Tables

variable {t u : Tables} {swaps : List (Nat × Nat)}

theorem exists_layout (h : ofList ps = .ok t) : ∃ l, Layout.ofList ps = .ok l ∧ t = l.tables := by
  rw [ofList_eq] at h
  cases hl : Layout.ofList ps with
  | error e => rw [hl] at h; cases h
  | ok l =>
    rw [hl] at h
    exact ⟨l, rfl, (Except.ok.inj h).symm⟩

theorem Reached.exists_layout (h : t.Reached) : ∃ l : Layout, t = l.tables := by
  obtain ⟨ps, t₀, swaps, ht₀, rfl⟩ := h
  obtain ⟨l, -, rfl⟩ := Tables.exists_layout ht₀
  exact ⟨_, swapAll_tables l swaps⟩

theorem exists_ofList_iff : (∃ t, ofList ps = .ok t) ↔ ps.Nodup := by
  rw [ofList_eq]
  unfold Layout.ofList
  split
  · rename_i h
    exact ⟨fun _ => h, fun _ => ⟨_, rfl⟩⟩
  · rename_i h
    refine ⟨?_, fun hn => absurd hn h⟩
    rintro ⟨t, ht⟩
    cases ht

theorem ofList_eq_error {e : Error} (h : ofList ps = .error e) : e = .placement (.layoutRepeats (repeated ps)) := by
  rw [ofList_eq] at h
  unfold Layout.ofList at h
  split at h
  · cases h
  · cases h
    rfl

/-- Tables are built exactly from lists of distinct qubits, and otherwise those listed more than once are reported,
    ascending and once each. From then on, whichever qubits SWAPs name, free ones and one qubit twice included, the
    tables are each other's inverse, have the size that they had, and are those of the layout after the same SWAPs.
    Tables that compare equal have the same occupants. -/
theorem tables_stay_inverse :
    (∀ ps, ((∃ t, ofList ps = .ok t) ↔ ps.Nodup) ∧
      ∀ e, ofList ps = .error e → ∃ qs, e = .placement (.layoutRepeats qs) ∧ qs.Pairwise (· < ·) ∧
        ∀ q, q ∈ qs ↔ 1 < ps.count q) ∧
    (∀ ps t, ofList ps = .ok t → t.places = ps ∧ ∀ swaps,
      (t.swapAll swaps).Inverse ∧ (t.swapAll swaps).size = ps.length ∧
      ∃ l, Layout.ofList ps = .ok l ∧ t.swapAll swaps = (l.swapAll swaps).tables) ∧
    ∀ t u : Tables, t.Reached → u.Reached → t.same u = true → ∀ p, t.occupants p = u.occupants p := by
  refine ⟨fun ps => ⟨exists_ofList_iff, fun e he => ?_⟩, fun ps t ht => ?_, fun t u ht hu hsame p => ?_⟩
  · exact ⟨_, ofList_eq_error he, Ascending.ofList_ascending _, fun q => mem_repeated⟩
  · obtain ⟨l, hl, rfl⟩ := exists_layout ht
    have hplaces : l.placement = ps := ofList_eq_ok hl
    refine ⟨hplaces, fun swaps => ?_⟩
    rw [swapAll_tables]
    refine ⟨inverse_tables _, ?_, l, hl, rfl⟩
    rw [← hplaces]
    exact size_swapAll l swaps
  · obtain ⟨l, rfl⟩ := ht.exists_layout
    obtain ⟨m, rfl⟩ := hu.exists_layout
    have hplaces : l.placement = m.placement := eq_of_beq hsame
    rw [Layout.ext hplaces]

/-- Qubits 4, 2 and 0 trade places with the free 7, with themselves and with each other, and are then where they would
    be listed as 7, 0 and 2; 1 and 3 are listed more than once. -/
theorem tables_stay_inverse_three :
    (∃ t u, ofList [4, 2, 0] = .ok t ∧ ofList [7, 0, 2] = .ok u ∧
      (t.swapAll [(4, 7), (2, 2), (9, 8), (0, 2)]).Inverse ∧
      ∀ p, (t.swapAll [(4, 7), (2, 2), (9, 8), (0, 2)]).occupants p = u.occupants p) ∧
    ∃ qs, ofList [3, 1, 3, 5, 1, 3] = .error (.placement (.layoutRepeats qs)) ∧ qs = [1, 3] ∧
      ∀ q, q ∈ qs ↔ 1 < [3, 1, 3, 5, 1, 3].count q := by
  obtain ⟨hbuilt, hswapped, hsame⟩ := tables_stay_inverse
  obtain ⟨t, ht⟩ := (hbuilt [4, 2, 0]).1.mpr (by decide)
  obtain ⟨u, hu⟩ := (hbuilt [7, 0, 2]).1.mpr (by decide)
  obtain ⟨hinverse, -, l, hl, htables⟩ := (hswapped [4, 2, 0] t ht).2 [(4, 7), (2, 2), (9, 8), (0, 2)]
  refine ⟨⟨t, u, ht, hu, hinverse, hsame _ u ⟨_, t, _, ht, rfl⟩ ⟨_, u, [], hu, rfl⟩ ?_⟩, ?_⟩
  · rw [htables, ← Except.ok.inj hl, same, (hswapped [7, 0, 2] u hu).1]
    decide
  · obtain ⟨qs, he, -, hmem⟩ := (hbuilt [3, 1, 3, 5, 1, 3]).2 _ rfl
    cases he
    exact ⟨_, rfl, by decide, hmem⟩

end Tables

end CircuitMapping.Layout
