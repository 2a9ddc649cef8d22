/-
  CircuitMapping.Proofs.Routing.Agreement — a routed circuit does what the logical one does.

  Physical values agree with logical ones through a layout when each logical qubit has its value where the layout has
  it. An inserted SWAP moves values and layout alike (`agrees_exchange`), and a gate on its physical qubits does there
  what it does on the logical ones (`agrees_placed`). So agreement is kept along a run of blocks (`agrees_run`), from
  the first layout of a routed circuit to its final one (`BlocksOf.agrees`).
-/
import CircuitMapping.Proofs.Circuit.Meaning
import CircuitMapping.Proofs.Routing.Replay

namespace CircuitMapping

universe u

variable {W : Type u} (I : Meaning W)

namespace Layout

/-- Every logical qubit has its value on the physical qubit where the layout has it. -/
def Agrees (l : Layout) (physical logical : Nat → W) : Prop := ∀ i p, l.placement[i]? = some p → physical p = logical i

/-! ## One gate -/

/-- A SWAP takes the value of each qubit along. -/
theorem apply_exchange (x : Exchange) (v : Nat → W) (p : Nat) :
    I.apply x.gate v (transpose x.a x.b p) = v p := by
  have hfirst := I.apply_getElem x.gate v (k := 0) Nat.zero_lt_two
  have hsecond := I.apply_getElem x.gate v (k := 1) Nat.one_lt_two
  simp only [Exchange.gate, List.map_cons, List.map_nil, I.effect_swap] at hfirst hsecond
  by_cases ha : p = x.a
  · rw [ha, transpose_left]
    exact Option.some.inj hsecond
  · by_cases hb : p = x.b
    · rw [hb, transpose_right]
      exact Option.some.inj hfirst
    · rw [transpose_of_ne ha hb]
      exact I.apply_of_notMem (by simp [Exchange.gate, ha, hb]) v

theorem agrees_exchange {l : Layout} {physical logical : Nat → W} (h : l.Agrees physical logical) (x : Exchange) :
    (l.swap x.a x.b).Agrees (I.apply x.gate physical) logical := by
  intro i p hp
  rw [placement_swap, List.getElem?_map, Option.map_eq_some_iff] at hp
  obtain ⟨q, hq, rfl⟩ := hp
  rw [apply_exchange]
  exact h i q hq

theorem agrees_exchanges {l : Layout} {physical logical : Nat → W} (h : l.Agrees physical logical)
    (xs : List Exchange) : (l.after xs).Agrees (I.run (xs.map Exchange.gate) physical) logical := by
  induction xs generalizing l physical with
  | nil => exact h
  | cons x xs ih => exact ih (agrees_exchange I h x)

theorem Agrees.values {l : Layout} {physical logical : Nat → W} (h : l.Agrees physical logical) {g p : Gate}
    (hp : l.Places g p) : p.qubits.map physical = g.qubits.map logical := by
  refine List.ext_getElem (by simp [hp.length]) ?_
  intro k hk hk'
  rw [List.length_map] at hk hk'
  rw [List.getElem_map, List.getElem_map]
  exact h _ _ (hp.qubits.get hk' hk)

theorem agrees_placed {l : Layout} {physical logical : Nat → W} (h : l.Agrees physical logical) {g p : Gate}
    (hp : l.Places g p) : l.Agrees (I.apply p physical) (I.apply g logical) := by
  intro i q hq
  by_cases hi : i ∈ g.qubits
  · -- the gate acts on `i`, and there on the value of `q`
    obtain ⟨k, hk, rfl⟩ := List.mem_iff_getElem.mp hi
    have hk' : k < p.qubits.length := hp.length ▸ hk
    have hget := hp.qubits.get hk hk'
    obtain rfl : p.qubits[k] = q := Option.some.inj (hget.symm.trans hq)
    exact I.apply_eq hp.op hp.params (h.values hp) hk hk'
  · have hqp : q ∉ p.qubits := fun hm => hi ((hp.mem_iff hq).mpr hm)
    rw [I.apply_of_notMem hi, I.apply_of_notMem hqp]
    exact h i q hq

end Layout

/-! ## Blocks -/

theorem Block.agrees_gates {d : Device} {l : Layout} {b : Block} (hb : b.Fits d l) {physical logical : Nat → W}
    (h : l.Agrees physical logical) :
    (l.after b.inserted).Agrees (I.run b.gates physical) (I.apply b.logical logical) := by
  rw [Block.inserted, Layout.after_append, Block.gates, I.run_append, I.run_cons]
  exact Layout.agrees_exchanges I (Layout.agrees_placed I (Layout.agrees_exchanges I h b.before) hb.placed) b.behind

theorem Block.agrees_run {d : Device} {l l' : Layout} {bs : List Block} (hr : Block.Run d l bs l')
    {physical logical : Nat → W} (h : l.Agrees physical logical) :
    l'.Agrees (I.run (bs.flatMap Block.gates) physical) (I.run (bs.map (·.logical)) logical) := by
  induction hr generalizing physical logical with
  | nil l => exact h
  | cons hb _ ih =>
    rw [List.flatMap_cons, I.run_append, List.map_cons, I.run_cons]
    exact ih (Block.agrees_gates I hb h)

theorem Routing.BlocksOf.agrees {d : Device} {c : Circuit} {r : Routed} {bs : List Block} (hb : BlocksOf d c r bs)
    {physical logical : Nat → W} (h : r.initial.Agrees physical logical) :
    r.final.Agrees (I.run r.circuit.gates physical) (I.run c.gates logical) := by
  rw [hb.gates, ← hb.logical]
  exact Block.agrees_run I hb.run h

end CircuitMapping
