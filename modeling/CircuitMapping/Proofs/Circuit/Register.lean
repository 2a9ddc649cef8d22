/-
  CircuitMapping.Proofs.Circuit.Register — what building a circuit does to its register and its gates.

  A gate that is added fits into the register and comes last (`add_eq_ok`), and those that fit can be added
  (`exists_add`, `exists_addAll`); reversing a circuit reverses its gates (`gates_reversed`). A circuit is what adding
  gates in order to an empty register leaves when its gates are these and have their positions as ids
  (`ofGates_eq_ok_iff`).
-/
import CircuitMapping.Circuit.Basic
import CircuitMapping.Proofs.Success

namespace CircuitMapping.Circuit

open Success

theorem empty_eq_ok {n : Nat} {c : Circuit} (h : empty n = .ok c) : c.width = n ∧ c.gates = [] := by
  unfold empty at h
  split at h
  · cases h; exact ⟨rfl, rfl⟩
  · cases h

theorem empty_eq_error {n : Nat} {e : Error} (h : empty n = .error e) : e = .argument .emptyCircuit := by
  unfold empty at h
  split at h
  · cases h
  · cases h; rfl

theorem add_eq_ok {c c' : Circuit} {g : Gate} (h : c.add g = .ok c') :
    (∀ q ∈ g.qubits, q < c.width) ∧ c'.width = c.width ∧ c'.gates = c.gates ++ [g] := by
  unfold add at h
  split at h
  · cases h
  · rename_i hf
    cases h
    refine ⟨?_, rfl, by simp [gates]⟩
    intro q hq
    simpa using List.find?_eq_none.mp hf q hq

/-- A register refuses no qubit that it has. -/
theorem find?_eq_none_of_lt {qs : List Nat} {n : Nat} (h : ∀ q ∈ qs, q < n) :
    (qs.find? fun q => decide (n ≤ q)) = none :=
  List.find?_eq_none.mpr fun q hq => by simpa using h q hq

theorem exists_find?_of_le {qs : List Nat} {n : Nat} (h : ∃ q ∈ qs, n ≤ q) :
    ∃ q ∈ qs, n ≤ q ∧ (qs.find? fun q => decide (n ≤ q)) = some q := by
  obtain ⟨r, hr, hle⟩ := h
  cases hfind : qs.find? fun q => decide (n ≤ q) with
  | none => exact absurd (List.find?_eq_none.mp hfind r hr) (by simpa using hle)
  | some q => exact ⟨q, List.mem_of_find?_eq_some hfind, by simpa using List.find?_some hfind, rfl⟩

theorem exists_empty {n : Nat} (h : 0 < n) : ∃ c, empty n = .ok c := ⟨_, dif_pos h⟩

theorem exists_add {c : Circuit} {g : Gate} (h : ∀ q ∈ g.qubits, q < c.width) : ∃ c', c.add g = .ok c' := by
  unfold add
  split
  · rename_i q hq
    cases (find?_eq_none_of_lt h).symm.trans hq
  · exact ⟨_, rfl⟩

/-- Gates that fit into the register can all be added, and come last. -/
theorem exists_addAll {c : Circuit} {gs : List Gate} (h : ∀ g ∈ gs, ∀ q ∈ g.qubits, q < c.width) :
    ∃ c', c.addAll gs = .ok c' ∧ c'.gates = c.gates ++ gs := by
  induction gs generalizing c with
  | nil => exact ⟨c, rfl, by simp⟩
  | cons g gs ih =>
    obtain ⟨hg, hgs⟩ := List.forall_mem_cons.mp h
    obtain ⟨c₁, hc₁⟩ := exists_add hg
    obtain ⟨-, hw, hgates⟩ := add_eq_ok hc₁
    obtain ⟨c', hc', hgates'⟩ := ih (c := c₁) (by rwa [hw])
    refine ⟨c', bind_eq_ok.mpr ⟨c₁, hc₁, hc'⟩, ?_⟩
    rw [hgates', hgates, List.append_assoc, List.singleton_append]

theorem gates_number (gs : List Gate) : (number gs).map (·.gate) = gs := by
  rw [number, List.map_map]
  exact List.zipIdx_map_fst 0 gs

theorem gates_reversed (c : Circuit) : c.reversed.gates = c.gates.reverse := gates_number _

theorem forall_mem_gates (c : Circuit) : ∀ g ∈ c.gates, ∀ q ∈ g.qubits, q < c.width := by
  intro g hg
  obtain ⟨e, he, rfl⟩ := List.mem_map.mp hg
  exact c.in_range e he

theorem ext {c d : Circuit} (hw : c.width = d.width) (he : c.entries = d.entries) : c = d := by
  cases c; cases d
  cases hw
  cases he
  rfl

theorem entries_of_add {c c' : Circuit} {g : Gate} (h : c.add g = .ok c') :
    c'.entries = c.entries ++ [⟨c.entries.length, g⟩] := by
  unfold add at h
  split at h
  · cases h
  · cases h
    rfl

theorem entries_of_addAll {c c' : Circuit} {gs : List Gate} (h : c.addAll gs = .ok c') :
    c'.width = c.width ∧ c'.entries = c.entries ++ (gs.zipIdx c.entries.length).map fun p => ⟨p.2, p.1⟩ := by
  induction gs generalizing c with
  | nil =>
    cases h
    exact ⟨rfl, (List.append_nil _).symm⟩
  | cons g gs ih =>
    obtain ⟨c₁, hc₁, h⟩ := bind_eq_ok.mp h
    obtain ⟨hw, he⟩ := ih h
    obtain ⟨-, hw₁, -⟩ := add_eq_ok hc₁
    refine ⟨hw.trans hw₁, ?_⟩
    rw [he, entries_of_add hc₁, List.length_append, List.length_singleton, List.zipIdx_cons, List.map_cons,
      List.append_assoc]
    rfl

theorem ofGates_eq_ok {n : Nat} {gs : List Gate} {c : Circuit} (h : ofGates n gs = .ok c) :
    c.width = n ∧ c.entries = number gs := by
  obtain ⟨c₀, hc₀, h⟩ := bind_eq_ok.mp h
  obtain ⟨hw, he⟩ := entries_of_addAll h
  unfold empty at hc₀
  split at hc₀
  · cases hc₀
    exact ⟨hw, he⟩
  · cases hc₀

/-- The circuits that are built gate by gate are those whose gates have their positions as ids. -/
theorem ofGates_eq_ok_iff {n : Nat} {gs : List Gate} {c : Circuit} :
    ofGates n gs = .ok c ↔ c.width = n ∧ c.entries = number gs := by
  refine ⟨ofGates_eq_ok, ?_⟩
  rintro ⟨rfl, he⟩
  have hgates : c.gates = gs := by rw [gates, he, gates_number]
  obtain ⟨c₀, hc₀⟩ := exists_empty c.width_pos
  have hfits : ∀ g ∈ gs, ∀ q ∈ g.qubits, q < c₀.width := by
    rw [← hgates, (empty_eq_ok hc₀).1]
    exact c.forall_mem_gates
  obtain ⟨c', hc', -⟩ := exists_addAll hfits
  have h : ofGates c.width gs = .ok c' := bind_eq_ok.mpr ⟨c₀, hc₀, hc'⟩
  rw [h, ext (ofGates_eq_ok h).1 ((ofGates_eq_ok h).2.trans he.symm)]

theorem size_eq_length (c : Circuit) : c.size = c.gates.length := by simp [size, gates]

end CircuitMapping.Circuit
