/-
  CircuitMapping.Proofs.Layout.Tables — SWAPs in the two tables of a layout.

  Whether both, one or neither of two physical qubits is occupied, and whether or not they differ, the tables are those
  of the layout after the SWAP (`swap_tables`), so they never come apart, and a second SWAP of the same two takes back
  the first (`swap_swap_tables`).
-/
import CircuitMapping.Layout.Tables
import CircuitMapping.Proofs.Layout.Exchanges

namespace CircuitMapping.Layout

/-! ## Who sits where after a SWAP -/

theorem logical_swap (l : Layout) (a b p : Nat) : (l.swap a b).logical p = l.logical (transpose a b p) := by
  refine Option.ext fun i => ?_
  rw [logical_eq_some, logical_eq_some, placement_swap, List.getElem?_map, Option.map_eq_some_iff]
  constructor
  · rintro ⟨q, hq, rfl⟩
    rwa [transpose_transpose]
  · intro h
    exact ⟨_, h, transpose_transpose a b p⟩

theorem swap_swap (l : Layout) (a b : Nat) : (l.swap a b).swap a b = l := by
  refine ext ?_
  rw [placement_swap, placement_swap, List.map_map]
  exact (List.map_congr_left fun p _ => transpose_transpose a b p).trans (List.map_id _)

/-! ## Two tables -/

namespace Tables

theorem ext {t u : Tables} (hp : t.places = u.places) (ho : ∀ p, t.occupants p = u.occupants p) : t = u := by
  cases t; cases u
  cases hp
  cases funext ho
  rfl

theorem occupants_enter (t : Tables) (p : Nat) (o : Option Nat) (q : Nat) :
    (t.enter p o).occupants q = if q = p then (t.occupants p).or o else t.occupants q := by
  cases o with
  | none =>
    rw [Option.or_none]
    split
    · rename_i h
      exact congrArg t.occupants h
    · rfl
  | some i => rfl

theorem occupants_swap (t : Tables) (a b p : Nat) : (t.swap a b).occupants p = t.occupants (transpose a b p) := by
  simp only [swap, occupants_enter, clear, transpose]
  by_cases ha : p = a
  · subst ha
    by_cases hb : p = b
    · subst hb
      rcases h : t.occupants p with _ | i <;> simp [h]
    · simp [hb]
  · by_cases hb : p = b
    · subst hb
      simp [ha]
    · simp [ha, hb]

end Tables

@[simp] theorem places_tables (l : Layout) : l.tables.places = l.placement := rfl

/-- A SWAP in the tables is the SWAP of the layout. -/
theorem swap_tables (l : Layout) (a b : Nat) : l.tables.swap a b = (l.swap a b).tables := by
  refine Tables.ext ?_ fun p => (Tables.occupants_swap _ a b p).trans (logical_swap l a b p).symm
  show ((((l.tables.clear a).clear b).enter b (l.logical a)).enter a (l.logical b)).places = exchange l.placement a b
  unfold exchange logical
  cases l.placement.idxOf? a <;> cases l.placement.idxOf? b <;> rfl

/-- Taking a SWAP back leaves both tables as they were. -/
theorem swap_swap_tables (l : Layout) (a b : Nat) : (l.tables.swap a b).swap a b = l.tables := by
  rw [swap_tables, swap_tables, swap_swap]

theorem swapAll_tables (l : Layout) (swaps : List (Nat × Nat)) : l.tables.swapAll swaps = (l.swapAll swaps).tables := by
  induction swaps generalizing l with
  | nil => rfl
  | cons s swaps ih => exact (congrArg (Tables.swapAll · swaps) (swap_tables l s.1 s.2)).trans (ih _)

theorem tables_after (l : Layout) (xs : List Exchange) :
    xs.foldl (fun t x => t.swap x.a x.b) l.tables = (l.after xs).tables := by
  have hswaps := swapAll_tables l (xs.map Exchange.pair)
  rw [Tables.swapAll, List.foldl_map] at hswaps
  rw [after_eq_foldl]
  exact hswaps

end CircuitMapping.Layout
