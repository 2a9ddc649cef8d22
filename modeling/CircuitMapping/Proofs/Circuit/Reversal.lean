/-
  CircuitMapping.Proofs.Circuit.Reversal — levels counted from the other end of a circuit.

  The level of a gate in the reversed circuit says how many gates at least have to come behind it, as its own level says
  it of the gates in front of it. Both chains and the gate fit into the circuit, so the two levels together stay below
  its height (`level_add_level_lt_height`). This bounds every level of the reversed circuit by the height, and reversing
  twice changes nothing, so a circuit and its reverse are of one height (`height_reversed`) and depth
  (`depth_reversed`).
-/
import CircuitMapping.Proofs.Circuit.Depth
import CircuitMapping.Proofs.Circuit.Register

namespace CircuitMapping

namespace Dependencies

variable {c : Circuit}

theorem mem_levels_ofCircuit {l : Nat} : l ∈ (ofCircuit c).levels ↔ l < (ofCircuit c).height := by
  constructor
  · exact le_foldl_max_of_mem (fun l => l + 1) 0
  · intro h
    obtain ⟨p, hp, rfl⟩ := exists_level c h
    exact (List.of_mem_zip (a := p.1) (b := p.2) hp).2

/-- What has to come in front of a gate and what has to come behind it fit into the circuit together. -/
theorem level_add_level_lt_height {i j l m : Nat} (hij : i + j + 1 = c.gates.length)
    (hl : (ofCircuit c).levels[i]? = some l) (hm : (ofCircuit c.reversed).levels[j]? = some m) :
    l + m < (ofCircuit c).height := by
  induction m generalizing i j l with
  | zero => exact mem_levels_ofCircuit.mp (List.mem_of_getElem? hl)
  | succ m ih =>
    have mirrored : ∀ {i j : Nat}, i + j + 1 = c.gates.length → c.reversed.gates[j]? = c.gates[i]? := by
      intro i j hij
      rw [Circuit.gates_reversed]
      exact List.getElem?_reverse' (by omega)
    -- the gate behind it that the reversed circuit has one level lower is higher in the circuit
    obtain ⟨g, hg⟩ := exists_gate_of_level hl
    obtain ⟨k, hk, h, hh, hmk, hmeet⟩ := exists_level_below ((mirrored hij).trans hg) hm
    have hik : c.gates.length - 1 - k + k + 1 = c.gates.length := by omega
    rw [mirrored hik] at hh
    obtain ⟨l', hl'⟩ := exists_level_of_gate hh
    have hlt := level_lt_of_meets hg hh hl hl' (by omega) hmeet.symm
    have := ih hik hl' hmk
    omega

theorem height_reversed_le (c : Circuit) : (ofCircuit c.reversed).height ≤ (ofCircuit c).height := by
  refine foldl_max_le_iff.mpr ⟨Nat.zero_le _, ?_⟩
  intro m hm
  obtain ⟨j, hj⟩ := List.mem_iff_getElem?.mp hm
  have hlt := (List.getElem?_eq_some_iff.mp hj).1
  rw [length_levels_ofCircuit, Circuit.gates_reversed, List.length_reverse] at hlt
  obtain ⟨l, hl⟩ := exists_level_of_gate
    (List.getElem?_eq_getElem (l := c.gates) (i := c.gates.length - 1 - j) (by omega))
  have := level_add_level_lt_height (by omega) hl hj
  omega

theorem ofCircuit_reversed_reversed (c : Circuit) : ofCircuit c.reversed.reversed = ofCircuit c := by
  unfold ofCircuit
  rw [Circuit.gates_reversed, Circuit.gates_reversed, List.reverse_reverse]
  rfl

theorem height_reversed (c : Circuit) : (ofCircuit c.reversed).height = (ofCircuit c).height := by
  refine le_antisymm (height_reversed_le c) ?_
  have := height_reversed_le c.reversed
  rwa [ofCircuit_reversed_reversed] at this

end Dependencies

/-- Running a circuit backwards makes it no deeper. -/
theorem Circuit.depth_reversed (c : Circuit) : c.reversed.depth = c.depth := by
  rw [Dependencies.depth_eq_height, Dependencies.depth_eq_height, Dependencies.height_reversed]

end CircuitMapping
