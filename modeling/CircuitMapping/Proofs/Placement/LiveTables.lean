/-
  CircuitMapping.Proofs.Placement.LiveTables — simulations that try out SWAPs on the tables of the layout itself.

  To find what a SWAP costs, such a simulation applies it to the tables, looks at the places, and applies it once more.
  That leaves both tables as they were (`probe_tables`), after all candidates too (`tryAll_tables`), so the SWAP chosen
  and all that follows are the same as when every cost is found on a layout of its own (`live_simulate`).

  Hence the tables are at the end those of the first layout after as many exchanges on couplings as have been counted,
  which is no more than the limit, and no qubit has left its component (`simulation_moves_along_couplings`).
-/
import CircuitMapping.Proofs.Layout.Tables
import CircuitMapping.Proofs.Placement.Search
import CircuitMapping.Proofs.Placement.Simulation
import CircuitMapping.Proofs.Routing.Feasibility

namespace CircuitMapping.Sabre

open Layout (Tables)

variable {σ : Type} [Source σ] {s : Search} {width : Nat} {pairs : List (Nat × Nat)}

/-! ## The tables come to no harm -/

theorem probe_tables (cost : Tables → Float) (l : Layout) (e : Edge) :
    Movable.probe cost l.tables e = (cost (l.swap e.lo e.hi).tables, l.tables) := by
  rw [Movable.probe_tables, Layout.swap_swap_tables, Layout.swap_tables]

theorem tryAll_tables (cost : Tables → Float) (l : Layout) (edges : List Edge) :
    tryAll cost l.tables edges = (l.tables, cheapest (fun e => cost (l.swap e.lo e.hi).tables) edges) :=
  tryAll_eq (probe_tables cost l) edges

/-! ## The same simulation -/

/-- The same state on the tables of its layout. -/
def State.live (st : State σ) : State σ Tables :=
  ⟨st.wires, st.layout.tables, st.decay, st.swaps, st.remaining, st.source⟩

omit [Source σ] in
theorem live_execute (pairs : Array (Nat × Nat)) (st : State σ) (g : Nat) :
    st.live.execute pairs g = (st.execute pairs g).live := by
  unfold State.execute
  cases pairs[g]? <;> rfl

omit [Source σ] in
theorem live_foldl_execute (pairs : Array (Nat × Nat)) (gs : List Nat) (st : State σ) :
    gs.foldl (State.execute pairs) st.live = (gs.foldl (State.execute pairs) st).live := by
  induction gs generalizing st with
  | nil => rfl
  | cons g gs ih => rw [List.foldl_cons, live_execute, ih, List.foldl_cons]

omit [Source σ] in
theorem live_drain (s : Search) (pairs : Array (Nat × Nat)) (n : Nat) (st : State σ) :
    s.drain pairs n st.live = (s.drain pairs n st).live := by
  induction n generalizing st with
  | zero => rfl
  | succ n ih =>
    have hsame : s.executable pairs st.live = s.executable pairs st := rfl
    unfold Search.drain
    rw [hsame]
    cases s.executable pairs st with
    | nil => rfl
    | cons g gs =>
      dsimp only
      rw [live_foldl_execute, ih]

theorem live_move (s : Search) (pairs : Array (Nat × Nat)) (st : State σ) :
    s.move pairs st.live = (s.move pairs st).map State.live := by
  unfold Search.move
  dsimp only [State.live]
  rw [tryAll_layout, tryAll_tables]
  -- tables are looked at where the layout has its places, so that edges and costs are the same
  dsimp only [Search.candidates, Search.cost, Movable.places_layout, Movable.places_tables, Layout.places_tables]
  generalize cheapest _ _ = found
  cases found with
  | nil => rfl
  | cons e es =>
    dsimp only [Option.map_some]
    rw [Movable.swap_tables, Layout.swap_tables]
    rfl

theorem live_run (s : Search) (pairs : Array (Nat × Nat)) (n : Nat) (st : State σ) :
    s.run pairs n st.live = (s.run pairs n st).live := by
  induction n generalizing st with
  | zero => exact live_drain s pairs _ st
  | succ n ih =>
    unfold Search.run
    dsimp only
    have hdrain : s.drain pairs st.live.remaining st.live = (s.drain pairs st.remaining st).live :=
      live_drain s pairs _ st
    rw [hdrain, live_move]
    split
    · rename_i h
      exact (congrArg State.live (if_pos h)).symm
    · rename_i h
      refine Eq.trans ?_ (congrArg State.live (if_neg h)).symm
      cases s.move pairs (s.drain pairs st.remaining st) with
      | none => rfl
      | some st' => exact ih st'

/-- A simulation on the tables of a layout does what one on layouts does. -/
theorem live_simulate (s : Search) (width : Nat) (pairs : List (Nat × Nat)) (l : Layout) (source : σ) :
    s.simulate width pairs l.tables source = (s.simulate width pairs l source).live :=
  live_run s pairs.toArray (s.limit pairs) (s.start width pairs l source)

/-! ## As many SWAPs as are counted -/

theorem swaps_run_le (s : Search) (pairs : List (Nat × Nat)) (n : Nat) (st : State σ) :
    (s.run pairs.toArray n st).swaps ≤ st.swaps + n := by
  induction n generalizing st with
  | zero => exact Nat.le_of_eq (drain_keeps s pairs.toArray _ st).2
  | succ n ih =>
    have hdrain := (drain_keeps s pairs.toArray st.remaining st).2
    unfold Search.run
    dsimp only
    split
    · omega
    · split
      · omega
      · rename_i st' hm
        have hswaps := (wires_of_move hm).2.2
        have := ih st'
        omega

theorem swaps_simulate_le (s : Search) (width : Nat) (pairs : List (Nat × Nat)) (l : Layout) (source : σ) :
    (s.simulate width pairs l source).swaps ≤ s.limit pairs :=
  (swaps_run_le s pairs _ _).trans (Nat.le_of_eq (Nat.zero_add _))

/-- A simulation moves qubits along couplings only: the layout that it leaves is the first one after as many exchanges
    on couplings as it has counted, which is no more than the limit, and no qubit has left its component. When it works
    on tables, these are the exchanges that it leaves in them: whatever candidates have been tried out on the tables of
    a layout, both are as before, and the SWAP chosen in any state is the same. -/
theorem simulation_moves_along_couplings (d : Device) (o : Options) (width : Nat) (pairs : List (Nat × Nat))
    (l : Layout) (source : σ) :
    (∃ xs : List Exchange, (∀ x ∈ xs, d.adjacent x.a x.b = true) ∧
      ((Search.on d o).simulate width pairs l source).layout = l.after xs ∧
      ((Search.on d o).simulate width pairs l source).swaps = xs.length ∧
      ((Search.on d o).simulate width pairs l.tables source).layout = xs.foldl (fun t x => t.swap x.a x.b) l.tables ∧
      ((Search.on d o).simulate width pairs l.tables source).swaps = xs.length ∧
      xs.length ≤ pairs.length * d.nodes.length) ∧
    (∀ (l' : Layout) (cost : Tables → Float) (best : Float × List Edge) (es : List Edge),
      (es.foldl (tryOut cost) (l'.tables, best)).1 = l'.tables ∧
      (es.foldl (tryOut cost) (l'.tables, best)).2 =
        es.foldl (keepCheapest fun e => cost (l'.swap e.lo e.hi).tables) best) ∧
    (∀ st : State σ, (Search.on d o).move pairs.toArray st.live =
      ((Search.on d o).move pairs.toArray st).map State.live) ∧
    l.Drifts d ((Search.on d o).simulate width pairs l source).layout := by
  have hle := swaps_simulate_le (.on d o) width pairs l source
  have hlive := live_simulate (.on d o) width pairs l source
  obtain ⟨xs, hx, hl, hs⟩ := moved_simulate (s := .on d o) rfl width pairs l source
  refine ⟨⟨xs, hx, hl, hs, ?_, ?_, hs ▸ hle⟩, fun l' cost best es => ?_, live_move _ _, ?_⟩
  · rw [hlive, Layout.tables_after, ← hl]
    rfl
  · rw [hlive, ← hs]
    rfl
  · rw [foldl_tryOut (probe_tables cost l')]
    exact ⟨rfl, rfl⟩
  · rw [hl]
    exact (Layout.Drifts.refl d l).exchanged hx

end CircuitMapping.Sabre
