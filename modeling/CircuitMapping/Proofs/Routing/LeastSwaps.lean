/-
  CircuitMapping.Proofs.Routing.LeastSwaps — no gate could have been routed with fewer SWAPs.

  One SWAP on a coupling changes the distance of two qubits by at most one (`edist_le_edist_transpose`), even when it
  moves both of them, since then they only trade places. So some SWAPs change it by at most their number
  (`edist_le_edist_carry`), and gathering the qubits of an interaction takes as many as their distance, less one
  (`Gathers.le_length`). The chain that routing inserts has just that length (`length_of_approach`), whichever of the
  shortest paths was drawn.

  A routed circuit is a row of blocks, each for the layout that the ones before it leave; so every block has the least
  number of SWAPs for its layout (`route_inserts_least_swaps`). Together they need not: what is best for one gate can be
  bad for the next.
-/
import CircuitMapping.Proofs.Device.Walks
import CircuitMapping.Proofs.Routing.Cutoff

namespace CircuitMapping

open Success

/-! ## Distances under SWAPs -/

theorem Layout.eq_or_eq_of_transpose_ne {a b p : Nat} (h : Layout.transpose a b p ≠ p) : p = a ∨ p = b := by
  by_contra hp
  obtain ⟨ha, hb⟩ := not_or.mp hp
  exact h (Layout.transpose_of_ne ha hb)

namespace Device

variable {d : Device} {x y : Nat}

theorem edist_transpose_le (h : d.adjacent x y = true) (p : Nat) : d.graph.edist (Layout.transpose x y p) p ≤ 1 := by
  have hxy : d.graph.edist x y = 1 := SimpleGraph.edist_eq_one_iff_adj.mpr (graph_adj.mpr h)
  by_cases hp : Layout.transpose x y p = p
  · rw [hp, SimpleGraph.edist_self]
    exact zero_le
  rcases Layout.eq_or_eq_of_transpose_ne hp with rfl | rfl
  · rw [Layout.transpose_left, SimpleGraph.edist_comm, hxy]
  · rw [Layout.transpose_right, hxy]

/-- One SWAP on a coupling changes the distance of two qubits by at most one. -/
theorem edist_le_edist_transpose (h : d.adjacent x y = true) (p q : Nat) :
    d.graph.edist p q ≤ d.graph.edist (Layout.transpose x y p) (Layout.transpose x y q) + 1 := by
  by_cases hp : Layout.transpose x y p = p
  · rw [hp]
    exact SimpleGraph.edist_triangle.trans (add_le_add_right (edist_transpose_le h q) _)
  by_cases hq : Layout.transpose x y q = q
  · rw [hq, add_comm]
    refine SimpleGraph.edist_triangle.trans (add_le_add_left ?_ _)
    rw [SimpleGraph.edist_comm]
    exact edist_transpose_le h p
  -- a SWAP that moves both is a SWAP of the two
  have hle : d.graph.edist p q ≤ 1 := by
    have hxy : d.graph.edist x y = 1 := SimpleGraph.edist_eq_one_iff_adj.mpr (graph_adj.mpr h)
    rcases Layout.eq_or_eq_of_transpose_ne hp with rfl | rfl
    · rcases Layout.eq_or_eq_of_transpose_ne hq with rfl | rfl
      · rw [SimpleGraph.edist_self]
        exact zero_le
      · exact hxy.le
    · rcases Layout.eq_or_eq_of_transpose_ne hq with rfl | rfl
      · rw [SimpleGraph.edist_comm]
        exact hxy.le
      · rw [SimpleGraph.edist_self]
        exact zero_le
  exact hle.trans le_add_self

/-- SWAPs on couplings change the distance of two qubits by at most their number. -/
theorem edist_le_edist_carry {xs : List Exchange} (h : ∀ x ∈ xs, d.adjacent x.a x.b = true) (p q : Nat) :
    d.graph.edist p q ≤ d.graph.edist (Exchange.carry xs p) (Exchange.carry xs q) + xs.length := by
  induction xs generalizing p q with
  | nil => simp
  | cons x xs ih =>
    obtain ⟨hx, hxs⟩ := List.forall_mem_cons.mp h
    calc d.graph.edist p q
        ≤ d.graph.edist (Layout.transpose x.a x.b p) (Layout.transpose x.a x.b q) + 1 :=
          edist_le_edist_transpose hx p q
      _ ≤ d.graph.edist (Exchange.carry (x :: xs) p) (Exchange.carry (x :: xs) q) + xs.length + 1 :=
          add_le_add_left (ih hxs _ _) 1
      _ = d.graph.edist (Exchange.carry (x :: xs) p) (Exchange.carry (x :: xs) q) + (x :: xs).length := by
          rw [List.length_cons, Nat.cast_succ, add_assoc]

end Device

/-! ## Gathering the qubits of an interaction -/

theorem Layout.ends_after {l : Layout} {g : Gate} {p q : Nat} (h : l.ends g = some (p, q)) (xs : List Exchange) :
    (l.after xs).ends g = some (Exchange.carry xs p, Exchange.carry xs q) := by
  obtain ⟨hi, a, b, hab, hp, hq⟩ := Layout.ends_eq_some.mp h
  exact Layout.ends_eq_some.mpr ⟨hi, a, b, hab, Layout.getElem?_after hp xs, Layout.getElem?_after hq xs⟩

/-- SWAPs on couplings that take the qubits of `g` from their places in `l` to coupled ones. -/
structure Device.Gathers (d : Device) (l : Layout) (g : Gate) (xs : List Exchange) : Prop where
  coupled : ∀ x ∈ xs, d.adjacent x.a x.b = true
  together : ∃ p q, (l.after xs).ends g = some (p, q) ∧ d.adjacent p q = true

namespace Device

variable {d : Device} {l : Layout} {g : Gate} {p q k : Nat} {xs : List Exchange}

/-- Qubits at distance `k + 1` cannot be gathered by fewer than `k` SWAPs. -/
theorem Gathers.le_length (h : d.Gathers l g xs) (he : l.ends g = some (p, q))
    (hk : d.distance p q = .ok (some (k + 1))) : k ≤ xs.length := by
  obtain ⟨-, hq, hhops⟩ := distance_eq_ok.mp hk
  obtain ⟨p', q', he', hadj⟩ := h.together
  rw [Layout.ends_after he xs] at he'
  cases he'
  have hle := edist_le_edist_carry h.coupled p q
  rw [(hops?_eq_some_iff hq).mp hhops, SimpleGraph.edist_eq_one_iff_adj.mpr (graph_adj.mpr hadj)] at hle
  have : k + 1 ≤ 1 + xs.length := by exact_mod_cast hle
  omega

end Device

/-- The SWAPs in front of an interaction gather its qubits. -/
theorem Block.Fits.gathers {d : Device} {l : Layout} {b : Block} (h : b.Fits d l) (hi : b.logical.IsInteraction) :
    d.Gathers l b.logical b.before where
  coupled x hx := h.coupled x (List.mem_append_left _ hx)
  together := by
    obtain ⟨a, c, -, hqubits⟩ := Gate.qubits_of_isInteraction hi
    obtain ⟨p, q, hplaced, hp, hq⟩ := h.placed.pair hqubits
    obtain ⟨k, hk, -, hjoins⟩ := h.kind
    obtain ⟨p', q', hplaced', hadj⟩ := hjoins ((Gate.needsAdjacency_iff hk).mpr hi)
    rw [hplaced] at hplaced'
    cases hplaced'
    exact ⟨p, q, Layout.ends_eq_some.mpr ⟨hi, a, c, hqubits, hp, hq⟩, hadj⟩

theorem Block.Fits.inserted_eq_nil {d : Device} {l : Layout} {b : Block} (h : b.Fits d l)
    (hi : ¬ b.logical.IsInteraction) : b.inserted = [] := by
  obtain ⟨k, hk, hidle, -⟩ := h.kind
  exact hidle (by simpa using mt (Gate.needsAdjacency_iff hk).mp hi)

namespace Routing

variable {σ : Type} [Source σ] {d : Device} {g : Gate} {t t' : Transit} {s s' : σ}

/-! ## One gate -/

/-- Bringing the qubits of an interaction together takes one SWAP less than their distance. -/
theorem length_of_approach {swaps : List (Nat × Nat)} (hon : t.layout.OnDevice d) (hi : g.IsInteraction)
    (h : approach d g t s = .ok (t', swaps, s')) :
    ∃ p q, t.layout.ends g = some (p, q) ∧ d.distance p q = .ok (some (swaps.length + 1)) := by
  obtain ⟨a, b, hne, hab⟩ := Gate.qubits_of_isInteraction hi
  rw [approach_of_qubits hab] at h
  obtain ⟨p, ha, h⟩ := bind_eq_ok.mp h
  obtain ⟨q, hb, h⟩ := bind_eq_ok.mp h
  rw [Layout.physical_eq_ok] at ha hb
  have he : t.layout.ends g = some (p, q) := Layout.ends_eq_some.mpr ⟨hi, a, b, hab, ha, hb⟩
  obtain ⟨hp, hq⟩ := Layout.mem_nodes_of_ends hon he
  refine ⟨p, q, he, Device.distance_eq_ok.mpr ⟨hp, hq, ?_⟩⟩
  split at h
  · rename_i hadj
    cases h
    exact Device.hops?_of_adjacent hadj
  · obtain ⟨⟨path, s₁⟩, hpath, h⟩ := bind_eq_ok.mp h
    obtain ⟨u, -, h⟩ := bind_eq_ok.mp h
    cases h
    obtain ⟨-, -, k, hk, rfl, -⟩ := Device.shortestPath_eq_ok hpath
    have hf := Device.descends_distancesFrom d q
    have hlen := (Device.isPath_descend hf k s hk).2.1
    -- two logical qubits are not on one physical qubit, so there is a step to take
    have hk0 : k ≠ 0 := by
      rintro rfl
      obtain rfl : p = q := hf.zero p hk
      exact hne (Layout.placement_injective ha hb)
    rw [hk, Transit.length_chain, List.length_cons, hlen]
    congr 1
    omega

/-- What stands in front of a gate is as long as the distance of its qubits asks for. -/
structure Sized (d : Device) (l : Layout) (b : Block) : Prop where
  behind : b.behind = []
  distance : b.logical.IsInteraction →
    ∃ p q, l.ends b.logical = some (p, q) ∧ d.distance p q = .ok (some (b.before.length + 1))

theorem sized_of_step {st st' : Transit × σ} (hon : st.1.layout.OnDevice d) (h : step d st g = .ok st') :
    ∃ b : Block, b.logical = g ∧ Sized d st.1.layout b ∧ Put d st.1 [b] st'.1 := by
  obtain ⟨b, rfl, hbehind, hput⟩ := block_of_step h
  refine ⟨b, rfl, ⟨hbehind, fun hi => ?_⟩, hput⟩
  rw [step_of_isInteraction hi] at h
  obtain ⟨⟨t, swaps, s⟩, happ, h⟩ := bind_eq_ok.mp h
  obtain ⟨t', hemit, h⟩ := bind_eq_ok.mp h
  cases pure_eq_ok.mp h
  -- the SWAPs put out are those counted
  obtain ⟨xs, hxs, hx, -⟩ := approach_spec hi happ
  obtain ⟨-, -, -, -, hbudget, -⟩ := Transit.emit_eq_ok hemit
  have hlen : b.before.length = swaps.length := by
    have hused := hput.used
    rw [List.flatMap_singleton, Block.inserted, hbehind, List.append_nil] at hused
    dsimp only at hused
    rw [hbudget, hx.exchanged.used] at hused
    rw [← hxs, List.length_map]
    omega
  rw [hlen]
  exact length_of_approach hon hi happ

/-! ## Along the blocks of a circuit -/

theorem length_flatMap_inserted {bs : List Block} (h : ∀ b ∈ bs, b.behind = []) :
    (bs.flatMap Block.inserted).length = (bs.map fun b => b.before.length).foldr (· + ·) 0 := by
  induction bs with
  | nil => rfl
  | cons b bs ih =>
    obtain ⟨hb, hbs⟩ := List.forall_mem_cons.mp h
    rw [List.flatMap_cons, List.length_append, ih hbs, Block.inserted, hb, List.append_nil]
    rfl

/-- Whatever a source of draws answers: in front of an interaction routing inserts one SWAP less than the distance of
    its qubits, which gathers them, and no fewer SWAPs on couplings do, wherever they lead; in front of other gates it
    inserts none. All SWAPs that are counted are these. -/
theorem route_inserts_least_swaps {x : Binary64} {s : σ} {c : Circuit} {d : Device} {initial : Option Layout}
    {r : Routed} (h : routeWith x s c d initial = .ok r) :
    IsStart c d initial r.initial ∧
    ∃ bs : List Block,
      bs.map (·.logical) = c.gates ∧
      r.circuit.gates = bs.flatMap Block.gates ∧
      Block.Run d r.initial bs r.final ∧
      (∀ b ∈ bs, b.behind = [] ∧ (¬ b.logical.IsInteraction → b.before = [])) ∧
      (∀ n b, bs[n]? = some b → b.logical.IsInteraction →
        (∃ p q, (Block.layoutAt r.initial bs n).ends b.logical = some (p, q) ∧
          d.distance p q = .ok (some (b.before.length + 1))) ∧
        d.Gathers (Block.layoutAt r.initial bs n) b.logical b.before ∧
        ∀ xs, d.Gathers (Block.layoutAt r.initial bs n) b.logical xs → b.before.length ≤ xs.length) ∧
      r.swaps = (bs.map fun b => b.before.length).foldr (· + ·) 0 := by
  obtain ⟨hc, hs, -, bs, hbs, hsized⟩ := routeWith_blocks (P := Sized d) sized_of_step h
  have hbehind : ∀ b ∈ bs, b.behind = [] := forall_mem_of_getElem? fun n b hb => (hsized n b hb).behind
  refine ⟨hs, bs, hbs.logical, hbs.gates, hbs.run, ?_, ?_, ?_⟩
  · intro b hb
    obtain ⟨m, -, hfits⟩ := hbs.run.fits_of_mem (hs.fits hc).2 hb
    exact ⟨hbehind b hb, fun hi => (List.append_eq_nil_iff.mp (hfits.inserted_eq_nil hi)).1⟩
  · intro n b hb hi
    have hgathers := (hbs.run.fits_of_getElem? hb).gathers hi
    obtain ⟨p, q, he, hdist⟩ := (hsized n b hb).distance hi
    exact ⟨⟨p, q, he, hdist⟩, hgathers, fun xs hxs => hxs.le_length he hdist⟩
  · rw [hbs.swaps, length_flatMap_inserted hbehind]

/-- Of the two SWAPs for the four interactions neither could have been saved. -/
theorem route_inserts_least_swaps_allMeet : ∃ r, route {} allMeet fourInARow none = .ok r ∧ r.swaps = 2 ∧
    ∃ bs : List Block,
      bs.map (·.logical) = allMeet.gates ∧
      Block.Run fourInARow r.initial bs r.final ∧
      (∀ n b, bs[n]? = some b → b.logical.IsInteraction →
        ∀ xs, fourInARow.Gathers (Block.layoutAt r.initial bs n) b.logical xs → b.before.length ≤ xs.length) ∧
      (bs.map fun b => b.before.length).foldr (· + ·) 0 = 2 := by
  obtain ⟨r, hr, hs⟩ := exists_ok_of_map (x := route {} allMeet fourInARow none) (f := (·.swaps)) (b := 2)
    (by decide +kernel)
  obtain ⟨-, bs, hbs, -, hrun, -, hleast, hsum⟩ := route_inserts_least_swaps hr
  exact ⟨r, hr, hs, bs, hbs, hrun, fun n b hb hi => (hleast n b hb hi).2.2, hsum.symm.trans hs⟩

end Routing

end CircuitMapping
