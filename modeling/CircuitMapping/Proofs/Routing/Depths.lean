/-
  CircuitMapping.Proofs.Routing.Depths — a routed circuit is at least as deep as the logical one.

  The levels of a logical and of a physical register are compared through a layout: no logical qubit is on a higher
  level than the physical qubit that it is on. A SWAP lifts two physical qubits above both levels that they had, so
  wherever the layout has a logical qubit now it has not been overtaken (`carries_exchange`). A gate is put on one
  level, on either side, and the highest of its physical qubits is no lower than the highest of its logical ones
  (`Carries.top_le`), so this is kept as well (`carries_placed`).

  Gates that meet on a logical qubit may be apart on physical ones, and are then linked by SWAPs alone; these are the
  levels that `Carries` passes on. So along a run of blocks no logical gate is on a higher level than the routed circuit
  is deep (`Block.Run.depthFrom_le`), and the overhead in depth is a difference that nothing was cut off from
  (`routing_never_shortens`).
-/
import CircuitMapping.Proofs.Circuit.Depth
import CircuitMapping.Proofs.Routing.Replay

namespace CircuitMapping

/-! ## Levels through a layout -/

namespace Layout

open Circuit

/-- Every logical qubit is on a level no higher than that of the physical qubit where the layout has it. -/
def Carries (l : Layout) (logical physical : Nat → Nat) : Prop :=
  ∀ i p, l.placement[i]? = some p → logical i ≤ physical p

variable {l : Layout} {logical physical : Nat → Nat}

/-- A SWAP takes no qubit to a lower level. -/
theorem le_rise_exchange (x : Exchange) (levels : Nat → Nat) (p : Nat) :
    levels p ≤ rise levels x.gate (transpose x.a x.b p) := by
  by_cases hp : p ∈ x.gate.qubits
  · have hq : transpose x.a x.b p ∈ x.gate.qubits :=
      transpose_mem (List.mem_cons_self ..) (List.mem_cons_of_mem _ (List.mem_singleton_self _)) hp
    rw [rise_of_mem hq]
    exact Nat.le_succ_of_le (le_top hp)
  · have hne : p ≠ x.a ∧ p ≠ x.b := by simpa [Exchange.gate] using hp
    rw [transpose_of_ne hne.1 hne.2, rise_of_notMem hp]

theorem carries_exchange (h : l.Carries logical physical) (x : Exchange) :
    (l.swap x.a x.b).Carries logical (rise physical x.gate) := by
  intro i p hp
  rw [placement_swap, List.getElem?_map, Option.map_eq_some_iff] at hp
  obtain ⟨q, hq, rfl⟩ := hp
  exact (h i q hq).trans (le_rise_exchange x physical q)

theorem carries_exchanges (h : l.Carries logical physical) (xs : List Exchange) :
    (l.after xs).Carries logical ((xs.map Exchange.gate).foldl rise physical) := by
  induction xs generalizing l physical with
  | nil => exact h
  | cons x xs ih => exact ih (carries_exchange h x)

theorem Carries.top_le (h : l.Carries logical physical) {g p : Gate} (hp : l.Places g p) :
    top logical g.qubits ≤ top physical p.qubits := by
  refine foldl_max_le_iff.mpr ⟨Nat.zero_le _, fun q hq => ?_⟩
  obtain ⟨k, hk, rfl⟩ := List.mem_iff_getElem.mp hq
  have hk' : k < p.qubits.length := hp.length ▸ hk
  exact (h _ _ (hp.qubits.get hk hk')).trans (le_top (List.getElem_mem hk'))

theorem carries_placed (h : l.Carries logical physical) {g p : Gate} (hp : l.Places g p) :
    l.Carries (rise logical g) (rise physical p) := by
  intro i q hq
  by_cases hi : i ∈ g.qubits
  · rw [rise_of_mem hi, rise_of_mem ((hp.mem_iff hq).mp hi)]
    exact Nat.succ_le_succ (h.top_le hp)
  · have hqp : q ∉ p.qubits := fun hm => hi ((hp.mem_iff hq).mpr hm)
    rw [rise_of_notMem hi, rise_of_notMem hqp]
    exact h i q hq

end Layout

/-! ## Blocks -/

open Circuit in
/-- One block: its gate is on no higher level than the block has, and what is behind it starts from levels that the
    layout carries. -/
theorem Block.carries_gates {d : Device} {l : Layout} {b : Block} (hb : b.Fits d l) {logical physical : Nat → Nat}
    (h : l.Carries logical physical) :
    top logical b.logical.qubits + 1 ≤ depthFrom physical b.gates ∧
      (l.after b.inserted).Carries (rise logical b.logical) (b.gates.foldl rise physical) := by
  have hbefore := Layout.carries_exchanges h b.before
  constructor
  · have hgate := Nat.succ_le_succ (hbefore.top_le hb.placed)
    rw [Block.gates, depthFrom_append, depthFrom_cons]
    exact hgate.trans ((Nat.le_max_left _ _).trans (Nat.le_max_right _ _))
  · rw [Block.inserted, Layout.after_append, Block.gates, List.foldl_append, List.foldl_cons]
    exact Layout.carries_exchanges (Layout.carries_placed hbefore hb.placed) b.behind

open Circuit in
theorem Block.Run.depthFrom_le {d : Device} {l l' : Layout} {bs : List Block} (hr : Block.Run d l bs l')
    {logical physical : Nat → Nat} (h : l.Carries logical physical) :
    depthFrom logical (bs.map (·.logical)) ≤ depthFrom physical (bs.flatMap Block.gates) := by
  induction hr generalizing logical physical with
  | nil l => exact Nat.le_refl 0
  | cons hb _ ih =>
    obtain ⟨hgate, hrest⟩ := Block.carries_gates hb h
    rw [List.map_cons, List.flatMap_cons, depthFrom_cons, depthFrom_append]
    exact max_le_max hgate (ih hrest)

namespace Routing

variable {σ : Type} [Source σ]

theorem BlocksOf.depth_le {d : Device} {c : Circuit} {r : Routed} {bs : List Block} (hb : BlocksOf d c r bs) :
    c.depth ≤ r.circuit.depth := by
  unfold Circuit.depth
  rw [hb.gates, ← hb.logical]
  exact hb.run.depthFrom_le fun _ _ _ => Nat.le_refl 0

/-! ## Whole circuits -/

/-- The outcome tells the depths of the circuit `c` and of the routed one, which is not lower, and their difference. -/
structure Deepens (c : Circuit) (r : Routed) : Prop where
  logical : r.logicalDepth = c.depth
  routed : r.routedDepth = r.circuit.depth
  le : c.depth ≤ r.circuit.depth
  overhead : (r.depthOverhead : Int) = r.circuit.depth - c.depth

theorem deepens_of_le {c : Circuit} {r : Routed} (hl : r.logicalDepth = c.depth) (hr : r.routedDepth = r.circuit.depth)
    (h : c.depth ≤ r.circuit.depth) : Deepens c r where
  logical := hl
  routed := hr
  le := h
  overhead := by
    rw [Routed.depthOverhead, hl, hr]
    exact Int.ofNat_sub h

theorem depths_of_routeWith {x : Binary64} {s : σ} {c : Circuit} {d : Device} {initial : Option Layout} {r : Routed}
    (h : routeWith x s c d initial = .ok r) : r.logicalDepth = c.depth ∧ r.routedDepth = r.circuit.depth := by
  simp only [routeWith_eq, Success.bind_eq_ok] at h
  obtain ⟨_, -, _, -, _, -, _, -, _, -, _, -, h⟩ := h
  cases h
  exact ⟨rfl, rfl⟩

theorem depths_of_routePinnedWith {x : Binary64} {s : σ} {request : Request} {c : Circuit} {d : Device} {r : Routed}
    (h : routePinnedWith x s request c d = .ok r) : r.logicalDepth = c.depth ∧ r.routedDepth = r.circuit.depth := by
  simp only [routePinnedWith_eq, Success.bind_eq_ok] at h
  obtain ⟨_, -, _, -, _, -, _, -, _, -, h⟩ := h
  cases h
  exact ⟨rfl, rfl⟩

/-- Whatever circuit is routed, on whatever device and from whatever layout: where it succeeds, the circuit put out is
    at least as deep as the logical one, and the overhead in depth is exactly what it is deeper. -/
theorem routing_never_shortens (o : Options) (c : Circuit) (d : Device) :
    (∀ initial r, route o c d initial = .ok r → Deepens c r) ∧
    ∀ request r, routePinned o request c d = .ok r → Deepens c r := by
  constructor
  · intro initial r h
    obtain ⟨hl, hr⟩ := depths_of_routeWith h
    obtain ⟨-, -, -, bs, hbs, -⟩ := routeWith_spec h
    exact deepens_of_le hl hr hbs.depth_le
  · intro request r h
    obtain ⟨hl, hr⟩ := depths_of_routePinnedWith h
    obtain ⟨-, -, bs, hbs, -⟩ := routePinnedWith_spec h
    exact deepens_of_le hl hr hbs.depth_le

/-- Two inserted SWAPs make the circuit deeper by two levels, and six of a requested layout by six. -/
theorem routing_never_shortens_allMeet :
    (∃ r, route {} allMeet fourInARow none = .ok r ∧ r.depthOverhead = 2 ∧ Deepens allMeet r) ∧
    ∃ r, routePinned {} [(0, 7), (1, 1), (2, 4)] allMeet fourInARow = .ok r ∧ r.depthOverhead = 6 ∧
      Deepens allMeet r := by
  obtain ⟨hroute, hpinned⟩ := routing_never_shortens {} allMeet fourInARow
  obtain ⟨r, hr, ho⟩ := Success.exists_ok_of_map (x := route {} allMeet fourInARow none) (f := Routed.depthOverhead)
    (b := 2) (by decide +kernel)
  obtain ⟨r', hr', ho'⟩ := Success.exists_ok_of_map
    (x := routePinned {} [(0, 7), (1, 1), (2, 4)] allMeet fourInARow) (f := Routed.depthOverhead) (b := 6)
    (by decide +kernel)
  exact ⟨⟨r, hr, ho, hroute _ r hr⟩, r', hr', ho', hpinned _ r' hr'⟩

end Routing

end CircuitMapping
