/-
  CircuitMapping.Proofs.Device.Grid — a grid is complete or refused, and its distances are those of its coordinates.

  Cell number `q` of a grid stands in row `q / cols` and column `q % cols`. The cells are coupled to the right and
  downwards, so a grid is the device that these couplings describe (`grid_eq_ofEdges`), and every cell but the first is
  the end of one of them (`exists_coupling_to`). When the number of cells does not fit into a word, there are too few
  nodes; the first cell without a node is the end of a coupling, so that building the grid fails (`not_describes`).

  Otherwise the cells beside each other are coupled (`adjacent_grid`), and the couplings are counted by the columns and
  by the rows that have one to go on to (`length_edges_grid`). The rows and columns between two cells then measure
  their distance (`distance_grid`): a coupling changes them by one, and towards another cell there is always one that
  lowers them.
-/
import CircuitMapping.Proofs.Device.EdgeLists
import CircuitMapping.Proofs.Device.Walks
import Mathlib.Data.List.Nodup
import Mathlib.Data.List.ProdSigma

namespace CircuitMapping

open Success

namespace Device

variable {rows cols p q : Nat}

/-! ## Cells -/

/-- Two cells of one row in neighbouring columns, or of one column in neighbouring rows. -/
def Beside (cols p q : Nat) : Prop :=
  p / cols = q / cols ∧ Nat.dist (p % cols) (q % cols) = 1 ∨ p % cols = q % cols ∧ Nat.dist (p / cols) (q / cols) = 1

/-- The rows and columns between two cells. -/
def gridDistance (cols p q : Nat) : Nat := Nat.dist (p / cols) (q / cols) + Nat.dist (p % cols) (q % cols)

theorem lt_cells_iff (hc : 0 < cols) : p < rows * cols ↔ p / cols < rows := (Nat.div_lt_iff_lt_mul hc).symm

theorem right_iff (hc : 0 < cols) :
    q / cols = p / cols ∧ q % cols = p % cols + 1 ↔ q = p + 1 ∧ p % cols + 1 < cols := by
  have hp := Nat.mod_add_div p cols
  rw [Nat.div_mod_unique hc]
  omega

theorem below_iff (hc : 0 < cols) : q / cols = p / cols + 1 ∧ q % cols = p % cols ↔ q = p + cols := by
  have hp := Nat.mod_add_div p cols
  have hlt := Nat.mod_lt p hc
  rw [Nat.div_mod_unique hc, Nat.mul_succ]
  omega

/-! ## A grid as an edge list -/

/-- The couplings of a cell, to the right and downwards. -/
def cellCouplings (rows cols k : Nat) : List (Nat × Nat) :=
  (if k % cols + 1 < cols then [(k, k + 1)] else []) ++ (if k / cols + 1 < rows then [(k, k + cols)] else [])

def gridCouplings (rows cols : Nat) : List (Nat × Nat) := (List.range (rows * cols)).flatMap (cellCouplings rows cols)

/-- What words hold of the ends of a coupling. -/
def wrapEnds (e : Nat × Nat) : Nat × Nat := (Word.wrap e.1, Word.wrap e.2)

theorem coupleCells_eq (rows cols m k : Nat) (d : Device) : coupleCells rows cols m k d =
    ((List.range' k m).flatMap (cellCouplings rows cols)).foldlM
      (fun d e => d.addEdge (wrapEnds e).1 (wrapEnds e).2) d := by
  induction m generalizing k d with
  | zero => rfl
  | succ m ih =>
    rw [coupleCells, List.range'_succ, List.flatMap_cons, List.foldlM_append]
    simp only [ih, cellCouplings, wrapEnds]
    split <;> split <;> simp

theorem grid_eq_ofEdges (hr : rows ≠ 0) (hc : cols ≠ 0) : grid rows cols =
    ofEdges (List.range (Word.wrap (rows * cols))) ((gridCouplings rows cols).map wrapEnds) := by
  rw [grid, if_neg (not_or_intro hr hc), coupleCells_eq, ← List.range_eq_range', ofEdges, List.foldlM_map]
  rfl

theorem mem_gridCouplings : (p, q) ∈ gridCouplings rows cols ↔
    p < rows * cols ∧ (q = p + 1 ∧ p % cols + 1 < cols ∨ q = p + cols ∧ p / cols + 1 < rows) := by
  simp only [gridCouplings, cellCouplings, List.mem_flatMap, List.mem_range, List.mem_append, List.mem_ite_nil_right,
    List.mem_singleton, Prod.mk.injEq]
  constructor
  · rintro ⟨k, hk, ⟨hlt, rfl, rfl⟩ | ⟨hlt, rfl, rfl⟩⟩
    · exact ⟨hk, .inl ⟨rfl, hlt⟩⟩
    · exact ⟨hk, .inr ⟨rfl, hlt⟩⟩
  · rintro ⟨hp, ⟨rfl, hlt⟩ | ⟨rfl, hlt⟩⟩
    · exact ⟨p, hp, .inl ⟨hlt, rfl, rfl⟩⟩
    · exact ⟨p, hp, .inr ⟨hlt, rfl, rfl⟩⟩

/-- In coordinates, a coupling leads one column on or one row on. -/
theorem mem_gridCouplings_iff (hc : 0 < cols) : (p, q) ∈ gridCouplings rows cols ↔ q < rows * cols ∧
    (q / cols = p / cols ∧ q % cols = p % cols + 1 ∨ q / cols = p / cols + 1 ∧ q % cols = p % cols) := by
  rw [mem_gridCouplings, ← right_iff hc, ← below_iff hc, lt_cells_iff hc, lt_cells_iff hc]
  omega

theorem lt_of_mem_gridCouplings (hc : 0 < cols) (h : (p, q) ∈ gridCouplings rows cols) : p < q ∧ q < rows * cols := by
  have hlt := (mem_gridCouplings.mp h).2
  refine ⟨by omega, ((mem_gridCouplings_iff hc).mp h).1⟩

/-- Every cell but the first has a neighbour to the left or above. -/
theorem exists_coupling_to (hc : 0 < cols) (hq : 0 < q) (hlt : q < rows * cols) :
    ∃ p, (p, q) ∈ gridCouplings rows cols := by
  by_cases hm : q % cols = 0
  · have hle : cols ≤ q := Nat.le_of_dvd hq (Nat.dvd_of_mod_eq_zero hm)
    exact ⟨q - cols, (mem_gridCouplings_iff hc).mpr ⟨hlt, .inr ((below_iff hc).mpr (Nat.sub_add_cancel hle).symm)⟩⟩
  · refine ⟨q - 1, (mem_gridCouplings_iff hc).mpr ⟨hlt, .inl ((right_iff hc).mpr ⟨by omega, ?_⟩)⟩⟩
    -- the cell before one that starts a row is the last of the row above
    by_contra hlast
    have hp := Nat.mod_add_div (q - 1) cols
    have hlt := Nat.mod_lt (q - 1) hc
    have hrow : q = cols * ((q - 1) / cols + 1) := by
      rw [Nat.mul_succ]
      omega
    exact hm (by rw [hrow, Nat.mul_mod_right])

/-! ## When a grid is built -/

/-- With more cells than words, a cell without a node is the end of a coupling. -/
theorem not_describes (hc : 0 < cols) (hlarge : Word.count ≤ rows * cols) :
    ¬ Describes (List.range (Word.wrap (rows * cols))) ((gridCouplings rows cols).map wrapEnds) := by
  intro h
  have hone : 1 < Word.count := by decide
  have hnodes := Word.wrap_lt (rows * cols)
  obtain ⟨q, hq, hmissing, hword⟩ : ∃ q, 0 < q ∧ Word.wrap (rows * cols) ≤ q ∧ q < Word.count :=
    ⟨max (Word.wrap (rows * cols)) 1, by omega, by omega, by omega⟩
  obtain ⟨p, hp⟩ := exists_coupling_to hc hq (Nat.lt_of_lt_of_le hword hlarge)
  obtain ⟨-, -, hend⟩ := h _ (List.mem_map_of_mem hp)
  rw [List.mem_range, wrapEnds, Word.wrap_of_lt hword] at hend
  omega

theorem map_wrapEnds_gridCouplings (hc : 0 < cols) (hlt : rows * cols < Word.count) :
    (gridCouplings rows cols).map wrapEnds = gridCouplings rows cols := by
  refine (List.map_congr_left fun e he => ?_).trans (List.map_id _)
  have hends := lt_of_mem_gridCouplings (p := e.1) (q := e.2) hc he
  rw [wrapEnds, Word.wrap_of_lt (by omega), Word.wrap_of_lt (by omega)]
  rfl

theorem listed_gridCouplings (hc : 0 < cols) :
    Listed (gridCouplings rows cols) p q ↔ p < rows * cols ∧ q < rows * cols ∧ Beside cols p q := by
  rw [Listed, mem_gridCouplings_iff hc, mem_gridCouplings_iff hc, lt_cells_iff hc, lt_cells_iff hc, Beside, Nat.dist,
    Nat.dist]
  omega

theorem describes_gridCouplings (hc : 0 < cols) : Describes (List.range (rows * cols)) (gridCouplings rows cols) := by
  intro e he
  have hends := lt_of_mem_gridCouplings (p := e.1) (q := e.2) hc he
  rw [List.mem_range, List.mem_range]
  omega

theorem grid_eq_of_lt (hr : 0 < rows) (hc : 0 < cols) (hlt : rows * cols < Word.count) :
    grid rows cols = ofEdges (List.range (rows * cols)) (gridCouplings rows cols) := by
  rw [grid_eq_ofEdges (Nat.ne_of_gt hr) (Nat.ne_of_gt hc), map_wrapEnds_gridCouplings hc hlt, Word.wrap_of_lt hlt]

theorem exists_grid_iff : (∃ d, grid rows cols = .ok d) ↔ 0 < rows ∧ 0 < cols ∧ rows * cols < Word.count := by
  constructor
  · rintro ⟨d, h⟩
    by_cases hempty : rows = 0 ∨ cols = 0
    · rw [grid, if_pos hempty] at h
      cases h
    · obtain ⟨hr, hc⟩ := not_or.mp hempty
      rw [grid_eq_ofEdges hr hc] at h
      have hdescribes := exists_ofEdges_iff.mp ⟨d, h⟩
      refine ⟨Nat.pos_of_ne_zero hr, Nat.pos_of_ne_zero hc, ?_⟩
      by_contra hlarge
      exact not_describes (Nat.pos_of_ne_zero hc) (Nat.not_lt.mp hlarge) hdescribes
  · rintro ⟨hr, hc, hlt⟩
    rw [grid_eq_of_lt hr hc hlt]
    exact exists_ofEdges_iff.mpr (describes_gridCouplings hc)

theorem configuration_of_grid {e : Error} (h : grid rows cols = .error e) : ∃ x, e = .configuration x := by
  by_cases hempty : rows = 0 ∨ cols = 0
  · rw [grid, if_pos hempty] at h
    cases h
    exact ⟨_, rfl⟩
  · obtain ⟨hr, hc⟩ := not_or.mp hempty
    rw [grid_eq_ofEdges hr hc] at h
    obtain ⟨_, -, ⟨-, rfl⟩ | ⟨-, -, rfl⟩⟩ := ofEdges_eq_error h
    · exact ⟨_, rfl⟩
    · exact ⟨_, rfl⟩

/-! ## What a grid is -/

variable {d : Device}

/-- A grid that was built is the device that its couplings describe. -/
theorem grid_eq_ok (h : grid rows cols = .ok d) :
    0 < cols ∧ ofEdges (List.range (rows * cols)) (gridCouplings rows cols) = .ok d := by
  obtain ⟨hr, hc, hlt⟩ := exists_grid_iff.mp ⟨d, h⟩
  rw [grid_eq_of_lt hr hc hlt] at h
  exact ⟨hc, h⟩

theorem mem_nodes_grid (h : grid rows cols = .ok d) : q ∈ d.nodes ↔ q < rows * cols := by
  obtain ⟨-, h⟩ := grid_eq_ok h
  rw [(ofEdges_eq_ok_iff.mp h).2.1, List.mem_range]

theorem adjacent_grid (h : grid rows cols = .ok d) :
    d.adjacent p q = true ↔ p < rows * cols ∧ q < rows * cols ∧ Beside cols p q := by
  obtain ⟨hc, h⟩ := grid_eq_ok h
  rw [(ofEdges_eq_ok_iff.mp h).2.2, listed_gridCouplings hc]

theorem mem_edges_grid (h : grid rows cols = .ok d) {x : Edge} :
    x ∈ d.edges ↔ (x.lo, x.hi) ∈ gridCouplings rows cols := by
  obtain ⟨hc, h⟩ := grid_eq_ok h
  rw [mem_edges_iff, (ofEdges_eq_ok_iff.mp h).2.2, Listed]
  constructor
  · rintro ⟨hends, hx | hx⟩
    · exact hx
    · exact absurd (lt_of_mem_gridCouplings hc hx).1 (Nat.not_lt.mpr (Nat.le_of_lt hends))
  · intro hx
    exact ⟨(lt_of_mem_gridCouplings hc hx).1, .inl hx⟩

/-! ## The number of couplings -/

theorem coordinates {c : Nat} (hc : c < cols) (r : Nat) : (r * cols + c) / cols = r ∧ (r * cols + c) % cols = c := by
  rw [Nat.div_mod_unique (Nat.zero_lt_of_lt hc), Nat.mul_comm]
  exact ⟨Nat.add_comm c _, hc⟩

/-- The couplings that lead `step` numbers on from the first `n` cells of each of the first `m` rows. -/
def stepEdges (cols step m n : Nat) : List Edge :=
  (List.range m ×ˢ List.range n).map fun x => ⟨x.1 * cols + x.2, x.1 * cols + x.2 + step⟩

theorem length_stepEdges (cols step m n : Nat) : (stepEdges cols step m n).length = m * n := by
  rw [stepEdges, List.length_map, List.length_product, List.length_range, List.length_range]

theorem mem_stepEdges {step m n : Nat} (hn : n ≤ cols) {x : Edge} :
    x ∈ stepEdges cols step m n ↔ x.lo / cols < m ∧ x.lo % cols < n ∧ x.hi = x.lo + step := by
  simp only [stepEdges, List.mem_map, Prod.exists, List.mem_product, List.mem_range]
  constructor
  · rintro ⟨r, c, ⟨hr, hc⟩, rfl⟩
    obtain ⟨hrow, hcol⟩ := coordinates (Nat.lt_of_lt_of_le hc hn) r
    dsimp only
    rw [hrow, hcol]
    exact ⟨hr, hc, rfl⟩
  · rintro ⟨hr, hc, hhi⟩
    refine ⟨x.lo / cols, x.lo % cols, ⟨hr, hc⟩, ?_⟩
    rw [Nat.div_add_mod', ← hhi]

theorem nodup_stepEdges {step m n : Nat} (hn : n ≤ cols) : (stepEdges cols step m n).Nodup := by
  refine (List.nodup_range.product List.nodup_range).map_on ?_
  rintro ⟨r, c⟩ hx ⟨r', c'⟩ hy hedge
  rw [List.mem_product, List.mem_range, List.mem_range] at hx hy
  obtain ⟨hrow, hcol⟩ := coordinates (Nat.lt_of_lt_of_le hx.2 hn) r
  obtain ⟨hrow', hcol'⟩ := coordinates (Nat.lt_of_lt_of_le hy.2 hn) r'
  have hlo : r * cols + c = r' * cols + c' := (Edge.mk.inj hedge).1
  rw [hlo] at hrow hcol
  rw [← hrow, ← hcol, hrow', hcol']

theorem length_edges_grid (h : grid rows cols = .ok d) :
    d.edges.length = rows * (cols - 1) + cols * (rows - 1) := by
  obtain ⟨hc, -⟩ := grid_eq_ok h
  have hle : cols - 1 ≤ cols := Nat.sub_le cols 1
  have hperm : d.edges.Perm (stepEdges cols 1 rows (cols - 1) ++ stepEdges cols cols (rows - 1) cols) := by
    refine (List.perm_ext_iff_of_nodup (Ascending.nodup d.edges_ascending) ?_).mpr fun x => ?_
    · refine (nodup_stepEdges hle).append (nodup_stepEdges (Nat.le_refl cols)) fun x hx hy => ?_
      -- a step of both kinds would be one in a single column
      rw [mem_stepEdges hle] at hx
      rw [mem_stepEdges (Nat.le_refl cols)] at hy
      omega
    · have hlt := Nat.mod_lt x.lo hc
      rw [mem_edges_grid h, mem_gridCouplings, lt_cells_iff hc, List.mem_append, mem_stepEdges hle,
        mem_stepEdges (Nat.le_refl cols)]
      generalize x.lo / cols = r, x.lo % cols = c at *
      omega
  rw [hperm.length_eq, List.length_append, length_stepEdges, length_stepEdges, Nat.mul_comm cols]

/-! ## Distances -/

theorem exists_cell {r c : Nat} (hr : r < rows) (hc : c < cols) : ∃ q < rows * cols, q / cols = r ∧ q % cols = c := by
  have hcoordinates := coordinates hc r
  refine ⟨r * cols + c, ?_, hcoordinates⟩
  rw [lt_cells_iff (Nat.zero_lt_of_lt hc), hcoordinates.1]
  exact hr

theorem gridDistance_le_of_beside {b : Nat} (h : Beside cols p q) :
    gridDistance cols p b ≤ gridDistance cols q b + 1 := by
  have hrows := Nat.dist.triangle_inequality (p / cols) (q / cols) (b / cols)
  have hcols := Nat.dist.triangle_inequality (p % cols) (q % cols) (b % cols)
  unfold gridDistance
  rcases h with ⟨hrow, hstep⟩ | ⟨hcol, hstep⟩
  · rw [hrow]
    omega
  · rw [hcol]
    omega

theorem exists_beside_nearer {b : Nat} (hp : p < rows * cols) (hb : b < rows * cols) (hne : p ≠ b) :
    ∃ q < rows * cols, Beside cols p q ∧ gridDistance cols p b = gridDistance cols q b + 1 := by
  have hc : 0 < cols := Nat.pos_of_mul_pos_left (Nat.zero_lt_of_lt hp)
  rw [lt_cells_iff hc] at hp hb
  by_cases hcol : p % cols = b % cols
  · have hrow : p / cols ≠ b / cols := by
      intro hrow
      exact hne ((Nat.mod_add_div p cols).symm.trans (hcol ▸ hrow ▸ Nat.mod_add_div b cols))
    obtain ⟨r, hr, hstep, hnear⟩ := exists_nearer hp hb hrow
    obtain ⟨q, hq, hqr, hqc⟩ := exists_cell hr (Nat.mod_lt p hc)
    refine ⟨q, hq, .inr ⟨hqc.symm, hqr ▸ hstep⟩, ?_⟩
    rw [gridDistance, gridDistance, hqr, hqc, hnear, Nat.add_right_comm]
  · obtain ⟨c, hlt, hstep, hnear⟩ := exists_nearer (Nat.mod_lt p hc) (Nat.mod_lt b hc) hcol
    obtain ⟨q, hq, hqr, hqc⟩ := exists_cell hp hlt
    refine ⟨q, hq, .inl ⟨hqr.symm, hqc ▸ hstep⟩, ?_⟩
    rw [gridDistance, gridDistance, hqr, hqc, hnear, Nat.add_assoc]

theorem distance_grid (h : grid rows cols = .ok d) (hp : p < rows * cols) (hq : q < rows * cols) :
    d.distance p q = .ok (some (gridDistance cols p q)) := by
  rw [← mem_nodes_grid h] at hp hq
  refine distance_eq_ok.mpr ⟨hp, hq, hops?_eq_of_descends (m := fun p => gridDistance cols p q) hq ?_ ?_ ?_ hp⟩
  · simp only [gridDistance, Nat.dist_self]
  · intro a b hab
    exact gridDistance_le_of_beside ((adjacent_grid h).mp hab).2.2
  · intro a ha hne
    rw [mem_nodes_grid h] at ha hq
    obtain ⟨b, hb, hbeside, hnear⟩ := exists_beside_nearer ha hq hne
    exact ⟨b, (adjacent_grid h).mpr ⟨ha, hb, hbeside⟩, hnear⟩

/-- A grid is built exactly when it has cells and they can be numbered by words, and refused with a configuration error
    otherwise. It has a node for each cell and couples the cells beside each other, and the distance of two cells is
    the number of rows and columns between them. -/
theorem grid_is_complete_or_refused (rows cols : Nat) :
    ((∃ d, grid rows cols = .ok d) ↔ 0 < rows ∧ 0 < cols ∧ rows * cols < Word.count) ∧
    (∀ e, grid rows cols = .error e → ∃ x, e = .configuration x) ∧
    ∀ d, grid rows cols = .ok d →
      d.nodes = List.range (rows * cols) ∧
      d.edges.length = rows * (cols - 1) + cols * (rows - 1) ∧
      (∀ p q, d.adjacent p q = true ↔ p < rows * cols ∧ q < rows * cols ∧ Beside cols p q) ∧
      ∀ p < rows * cols, ∀ q < rows * cols,
        d.distance p q = .ok (some (Nat.dist (p / cols) (q / cols) + Nat.dist (p % cols) (q % cols))) := by
  refine ⟨exists_grid_iff, fun e => configuration_of_grid, fun d h => ⟨?_, length_edges_grid h, ?_, ?_⟩⟩
  · refine Ascending.eq_of_mem_iff d.nodes_ascending List.pairwise_lt_range fun q => ?_
    rw [mem_nodes_grid h, List.mem_range]
  · intro p q
    exact adjacent_grid h
  · intro p hp q hq
    exact distance_grid h hp hq

/-- Six cells in two rows, no rows at all, and more cells than words, though each side fits into one. -/
theorem grid_is_complete_or_refused_sixCells :
    (∃ d, grid 2 3 = .ok d ∧ d.nodes = List.range 6 ∧ d.edges.length = 7 ∧ d.adjacent 1 4 = true ∧
      d.adjacent 2 3 = false ∧ d.distance 0 5 = .ok (some 3)) ∧
    grid 0 3 = .error (.configuration .emptyGrid) ∧
    ∃ x, grid 4294967297 4294967296 = .error (.configuration x) := by
  obtain ⟨hbuilt, -, hgrid⟩ := grid_is_complete_or_refused 2 3
  obtain ⟨d, hd⟩ := hbuilt.mpr ⟨by decide, by decide, by decide⟩
  obtain ⟨hnodes, hlen, hadj, hdistance⟩ := hgrid d hd
  have hbeside : d.adjacent 2 3 = false := by
    rw [Bool.eq_false_iff, Ne, hadj, Beside]
    decide
  refine ⟨⟨d, hd, hnodes, hlen, (hadj 1 4).mpr ⟨by decide, by decide, .inr (by decide)⟩, hbeside,
    hdistance 0 (by decide) 5 (by decide)⟩, rfl, ?_⟩
  obtain ⟨hlarge, hkind, -⟩ := grid_is_complete_or_refused 4294967297 4294967296
  cases h : grid 4294967297 4294967296 with
  | ok d => exact absurd (hlarge.mp ⟨d, h⟩).2.2 (by decide)
  | error e =>
    obtain ⟨x, rfl⟩ := hkind e h
    exact ⟨x, rfl⟩

end Device

end CircuitMapping
