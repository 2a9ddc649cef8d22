/-
  CircuitMapping.Proofs.Circuit.Levels — levels order the gates that share a qubit.

  On each of its qubits a node follows the latest node there, whose level is the highest so far (`latest`), so its own
  is higher than those of all earlier nodes that it shares a qubit with (`ascending`). Appending a gate keeps both
  (`leveled_append`), so they hold of the dependencies of every circuit (`leveled_ofCircuit`).

  A node's level is at most one above the highest so far, so no level is left out (`exists_level`), and nodes of one
  level share no qubit (`pairwise_of_mem_layers`). Visiting the layers from the first to the last visits every node
  once, on its level (`visits_perm`), and those of one level by their positions (`visits_ascending`).
-/
import CircuitMapping.Circuit.Dependencies
import CircuitMapping.Proofs.Gate.Kinds
import CircuitMapping.Proofs.Highest

namespace CircuitMapping.Dependencies

/-- The nodes with their levels. -/
def leveled (d : Dependencies) : List (Node × Nat) := d.nodes.zip d.levels

/-! ## Appending a gate -/

theorem latestOn_concat (ns : List Node) (n : Node) (q : Nat) :
    latestOn (ns ++ [n]) q = if q ∈ n.gate.qubits then some n.id else latestOn ns q := by
  simp [latestOn]

theorem mem_foldl_link {xs ids : List Nat} {k : Nat} : k ∈ xs.foldl link ids ↔ k ∈ ids ∨ k ∈ xs := by
  induction xs generalizing ids with
  | nil => simp
  | cons x xs ih =>
    rw [List.foldl_cons, ih]
    unfold link
    split
    · rename_i hx
      constructor
      · rintro (h | h)
        · exact .inl h
        · exact .inr (List.mem_cons_of_mem x h)
      · rintro (h | h)
        · exact .inl h
        · rcases List.mem_cons.mp h with rfl | h
          · exact .inl hx
          · exact .inr h
    · simp [or_assoc]

theorem mem_predecessorsOf {ns : List Node} {qs : List Nat} {k : Nat} :
    k ∈ predecessorsOf ns qs ↔ ∃ q ∈ qs, latestOn ns q = some k := by
  rw [predecessorsOf, mem_foldl_link]
  simp

/-- The node that a gate becomes when it is appended. -/
def nodeOf (d : Dependencies) (g : Gate) : Node := ⟨d.nodes.length, g, predecessorsOf d.nodes g.qubits⟩

theorem nodes_append (d : Dependencies) (g : Gate) : (d.append g).nodes = d.nodes ++ [d.nodeOf g] := rfl

theorem levels_append (d : Dependencies) (g : Gate) :
    (d.append g).levels = d.levels ++ [levelAfter d.levels (d.nodeOf g)] := by
  simp [levels, nodes_append]

theorem length_foldl_levels (ns : List Node) (ls : List Nat) :
    (ns.foldl (fun ls n => ls ++ [levelAfter ls n]) ls).length = ls.length + ns.length := by
  induction ns generalizing ls with
  | nil => simp
  | cons n ns ih =>
    rw [List.foldl_cons, ih]
    simp
    omega

theorem length_levels (d : Dependencies) : d.levels.length = d.nodes.length := by
  rw [levels, length_foldl_levels, List.length_nil, Nat.zero_add]

theorem mem_leveled_append {d : Dependencies} {g : Gate} {p : Node × Nat} :
    p ∈ (d.append g).leveled ↔ p ∈ d.leveled ∨ p = (d.nodeOf g, levelAfter d.levels (d.nodeOf g)) := by
  rw [leveled, nodes_append, levels_append, List.zip_append d.length_levels.symm]
  simp [leveled]

theorem lt_levelAfter {levels : List Nat} {n : Node} {k l : Nat} (hk : k ∈ n.predecessors) (hl : levels[k]? = some l) :
    l < levelAfter levels n := by
  have h := le_foldl_max_of_mem (fun p => levels.getD p 0 + 1) 0 hk
  rw [List.getD_eq_getElem?_getD, hl] at h
  exact h

/-! ## The order of levels -/

/-- Levels rise along every qubit. -/
structure Leveled (d : Dependencies) : Prop where
  ids : ∀ p ∈ d.leveled, p.1.id < d.nodes.length
  latest : ∀ p ∈ d.leveled, ∀ q ∈ p.1.gate.qubits, ∃ k l, latestOn d.nodes q = some k ∧ d.levels[k]? = some l ∧ p.2 ≤ l
  ascending : ∀ p ∈ d.leveled, ∀ p' ∈ d.leveled, p.1.id < p'.1.id → p.1.gate.Meets p'.1.gate → p.2 < p'.2

theorem leveled_nil (width : Nat) : Leveled ⟨width, []⟩ where
  ids p hp := by cases hp
  latest p hp := by cases hp
  ascending p hp := by cases hp

theorem Leveled.lt_levelAfter {d : Dependencies} (h : d.Leveled) {p : Node × Nat} (hp : p ∈ d.leveled) {g : Gate}
    (hg : p.1.gate.Meets g) : p.2 < levelAfter d.levels (d.nodeOf g) := by
  obtain ⟨q, hq, hqg⟩ := hg
  obtain ⟨k, l, hk, hl, hle⟩ := h.latest p hp q hq
  have hpred : k ∈ (d.nodeOf g).predecessors := mem_predecessorsOf.mpr ⟨q, hqg, hk⟩
  exact Nat.lt_of_le_of_lt hle (Dependencies.lt_levelAfter hpred hl)

theorem leveled_append {d : Dependencies} (h : d.Leveled) (g : Gate) : (d.append g).Leveled where
  ids p hp := by
    rw [nodes_append, List.length_append, List.length_singleton]
    rcases mem_leveled_append.mp hp with hp | rfl
    · have := h.ids p hp
      omega
    · exact Nat.lt_succ_self d.nodes.length
  latest p hp q hq := by
    rw [nodes_append, latestOn_concat, levels_append]
    by_cases hqg : q ∈ g.qubits
    · -- the new node is the latest one on `q`
      refine ⟨d.nodes.length, levelAfter d.levels (d.nodeOf g), if_pos hqg, ?_, ?_⟩
      · rw [← d.length_levels, List.getElem?_concat_length]
      · rcases mem_leveled_append.mp hp with hp | rfl
        · exact (h.lt_levelAfter hp ⟨q, hq, hqg⟩).le
        · exact le_rfl
    · rcases mem_leveled_append.mp hp with hp | rfl
      · obtain ⟨k, l, hk, hl, hle⟩ := h.latest p hp q hq
        refine ⟨k, l, (if_neg hqg).trans hk, ?_, hle⟩
        rw [List.getElem?_append_left (List.getElem?_eq_some_iff.mp hl).1, hl]
      · exact absurd hq hqg
  ascending p hp p' hp' hlt hm := by
    rcases mem_leveled_append.mp hp with hp | rfl <;> rcases mem_leveled_append.mp hp' with hp' | rfl
    · exact h.ascending p hp p' hp' hlt hm
    · exact h.lt_levelAfter hp hm
    · -- no node comes behind the new one
      have := h.ids p' hp'
      exact absurd hlt (Nat.lt_asymm this)
    · exact absurd hlt (Nat.lt_irrefl _)

theorem leveled_foldl {d : Dependencies} (h : d.Leveled) (gs : List Gate) : (gs.foldl append d).Leveled := by
  induction gs generalizing d with
  | nil => exact h
  | cons g gs ih => exact ih (leveled_append h g)

theorem leveled_ofCircuit (c : Circuit) : (ofCircuit c).Leveled := leveled_foldl (leveled_nil c.width) c.gates

/-! ## Nodes and gates -/

theorem nodes_foldl (gs : List Gate) (d : Dependencies) :
    (gs.foldl append d).nodes.map (fun n => (n.gate, n.id))
      = d.nodes.map (fun n => (n.gate, n.id)) ++ gs.zipIdx d.nodes.length := by
  induction gs generalizing d with
  | nil => simp
  | cons g gs ih =>
    rw [List.foldl_cons, ih, nodes_append]
    simp [nodeOf]

/-- The nodes are the numbered gates. -/
theorem nodes_ofCircuit (c : Circuit) : (ofCircuit c).nodes.map (fun n => (n.gate, n.id)) = c.gates.zipIdx :=
  nodes_foldl c.gates ⟨c.width, []⟩

theorem map_fst_leveled (d : Dependencies) : d.leveled.map (·.1) = d.nodes :=
  List.map_fst_zip d.length_levels.ge

theorem nodes_ascending (c : Circuit) : (ofCircuit c).nodes.Pairwise fun n m => n.id < m.id := by
  have h : ((ofCircuit c).nodes.map (·.id)).Pairwise (· < ·) := by
    have := congrArg (List.map Prod.snd) (nodes_ofCircuit c)
    rw [List.map_map, List.zipIdx_map_snd] at this
    exact this ▸ List.pairwise_lt_range'
  exact List.pairwise_map.mp h

theorem gate_mem_of_mem_nodes {c : Circuit} {n : Node} (h : n ∈ (ofCircuit c).nodes) : n.gate ∈ c.gates := by
  have := List.mem_map_of_mem (f := fun n : Node => (n.gate, n.id)) h
  rw [nodes_ofCircuit] at this
  exact List.fst_mem_of_mem_zipIdx this

/-! ## No level is left out -/

theorem height_append (d : Dependencies) (g : Gate) :
    (d.append g).height = max d.height (levelAfter d.levels (d.nodeOf g) + 1) := by
  rw [height, levels_append, List.foldl_append]
  rfl

theorem levelAfter_le_height (d : Dependencies) (g : Gate) : levelAfter d.levels (d.nodeOf g) ≤ d.height := by
  refine foldl_max_le_iff.mpr ⟨Nat.zero_le _, ?_⟩
  intro k hk
  obtain ⟨q, -, hq⟩ := mem_predecessorsOf.mp hk
  have hmem : ∀ l ∈ d.levels, l + 1 ≤ d.height := fun l hl => le_foldl_max_of_mem (fun l => l + 1) 0 hl
  rw [List.getD_eq_getElem?_getD]
  cases hl : d.levels[k]? with
  | some l => exact hmem l (List.mem_of_getElem? hl)
  | none =>
    -- there is a predecessor, so there is a level
    have hne : d.levels ≠ [] := by
      intro he
      have hnil : d.nodes = [] := List.eq_nil_of_length_eq_zero (by rw [← d.length_levels, he]; rfl)
      rw [hnil] at hq
      cases hq
    obtain ⟨l, hl⟩ := List.exists_mem_of_ne_nil _ hne
    exact (Nat.le_add_left 1 l).trans (hmem l hl)

theorem exists_level_foldl {d : Dependencies} (h : ∀ l < d.height, ∃ p ∈ d.leveled, p.2 = l) (gs : List Gate) :
    ∀ l < (gs.foldl append d).height, ∃ p ∈ (gs.foldl append d).leveled, p.2 = l := by
  induction gs generalizing d with
  | nil => exact h
  | cons g gs ih =>
    refine ih ?_
    intro l hl
    rw [height_append, lt_max_iff] at hl
    have hle := levelAfter_le_height d g
    rcases Nat.lt_or_ge l d.height with hlt | hge
    · obtain ⟨p, hp, hpl⟩ := h l hlt
      exact ⟨p, mem_leveled_append.mpr (.inl hp), hpl⟩
    · exact ⟨_, mem_leveled_append.mpr (.inr rfl), by simp only; omega⟩

theorem exists_level (c : Circuit) {l : Nat} (h : l < (ofCircuit c).height) :
    ∃ p ∈ (ofCircuit c).leveled, p.2 = l := by
  refine exists_level_foldl ?_ c.gates l h
  intro l hl
  cases hl

/-! ## Layer by layer -/

/-- The nodes in the order of their layers, each with its level. -/
def visits (d : Dependencies) : List (Node × Nat) := d.layers.zipIdx.flatMap fun l => l.1.map (·, l.2)

theorem level_lt_height {d : Dependencies} {p : Node × Nat} (hp : p ∈ d.leveled) : p.2 < d.height := by
  have hl : p.2 ∈ d.levels := (List.of_mem_zip (a := p.1) (b := p.2) hp).2
  exact le_foldl_max_of_mem (fun l => l + 1) 0 hl

/-- Pairs sorted into groups by their numbers, from 0 on. -/
theorem flatMap_groups_perm {α : Type} (xs : List (α × Nat)) (h : Nat) :
    ((List.range h).flatMap fun l => xs.filter fun x => x.2 == l).Perm (xs.filter fun x => x.2 < h) := by
  induction h with
  | zero => simp
  | succ h ih =>
    rw [List.range_succ, List.flatMap_append, List.flatMap_singleton]
    refine (ih.append_right _).trans ?_
    have hsplit := List.filter_append_perm (fun x : α × Nat => decide (x.2 < h)) (xs.filter fun x => x.2 < h + 1)
    rw [List.filter_filter, List.filter_filter] at hsplit
    refine List.Perm.trans (.of_eq ?_) hsplit
    congr 1 <;> refine List.filter_congr fun x _ => Bool.eq_iff_iff.mpr ?_
    · simp
      omega
    · simp
      omega

theorem layers_eq_nil_iff (c : Circuit) : (ofCircuit c).layers = [] ↔ c.gates = [] := by
  constructor
  · intro h
    have hheight : (ofCircuit c).height = 0 := by simpa [layers] using h
    have hnodes : (ofCircuit c).nodes = [] := by
      rw [← map_fst_leveled, List.map_eq_nil_iff, List.eq_nil_iff_forall_not_mem]
      intro p hp
      have := level_lt_height hp
      omega
    have := nodes_ofCircuit c
    rw [hnodes, List.map_nil] at this
    exact List.zipIdx_eq_nil_iff.mp this.symm
  · intro h
    unfold ofCircuit
    rw [h]
    rfl

theorem zipIdx_layers (d : Dependencies) :
    d.layers.zipIdx = (List.range d.height).map fun l => ((d.leveled.filter fun p => p.2 == l).map (·.1), l) := by
  refine List.ext_getElem (by simp [layers]) ?_
  intro i h h'
  simp [layers, leveled]

/-- Nodes of one level share no qubit. -/
theorem pairwise_of_mem_layers {c : Circuit} {ns : List Node} (h : ns ∈ (ofCircuit c).layers) :
    ns.Pairwise fun n m => ¬ n.gate.Meets m.gate := by
  obtain ⟨l, -, rfl⟩ := List.mem_map.mp h
  have hasc := nodes_ascending c
  rw [← map_fst_leveled, List.pairwise_map] at hasc
  refine List.pairwise_map.mpr ((hasc.filter _).imp_of_mem ?_)
  intro p p' hp hp' hlt hm
  obtain ⟨hp, hl⟩ := List.mem_filter.mp hp
  obtain ⟨hp', hl'⟩ := List.mem_filter.mp hp'
  have := (leveled_ofCircuit c).ascending p hp p' hp' hlt hm
  simp only [beq_iff_eq] at hl hl'
  omega

theorem mem_nodes_of_mem_layers {d : Dependencies} {ns : List Node} (h : ns ∈ d.layers) {n : Node} (hn : n ∈ ns) :
    n ∈ d.nodes := by
  obtain ⟨l, -, rfl⟩ := List.mem_map.mp h
  obtain ⟨p, hp, rfl⟩ := List.mem_map.mp hn
  exact (List.of_mem_zip (a := p.1) (b := p.2) (List.mem_filter.mp hp).1).1

theorem ne_nil_of_mem_layers {c : Circuit} {ns : List Node} (h : ns ∈ (ofCircuit c).layers) : ns ≠ [] := by
  obtain ⟨l, hl, rfl⟩ := List.mem_map.mp h
  obtain ⟨p, hp, rfl⟩ := exists_level c (List.mem_range.mp hl)
  refine List.ne_nil_of_mem (List.mem_map_of_mem (f := Prod.fst) (List.mem_filter.mpr ⟨hp, ?_⟩))
  exact beq_self_eq_true _

theorem visits_eq (d : Dependencies) :
    d.visits = (List.range d.height).flatMap fun l => d.leveled.filter fun p => p.2 == l := by
  rw [visits, zipIdx_layers, List.flatMap_map]
  congr 1
  funext l
  rw [List.map_map]
  refine (List.map_congr_left ?_).trans (List.map_id _)
  intro p hp
  have hl : p.2 = l := by simpa using (List.mem_filter.mp hp).2
  rw [← hl]
  rfl

/-- By level, and on one level by position. -/
theorem visits_ascending (c : Circuit) :
    (ofCircuit c).visits.Pairwise fun v w => v.2 < w.2 ∨ v.2 = w.2 ∧ v.1.id < w.1.id := by
  rw [visits_eq]
  refine List.pairwise_flatMap.mpr ⟨?_, List.pairwise_lt_range.imp ?_⟩
  · intro l _
    have hasc := nodes_ascending c
    rw [← map_fst_leveled, List.pairwise_map] at hasc
    refine (hasc.filter _).imp_of_mem fun hv hw hlt => .inr ⟨?_, hlt⟩
    have hvl := (List.mem_filter.mp hv).2
    have hwl := (List.mem_filter.mp hw).2
    exact (beq_iff_eq.mp hvl).trans (beq_iff_eq.mp hwl).symm
  · intro l m hlm v hv w hw
    have hvl := beq_iff_eq.mp (List.mem_filter.mp hv).2
    have hwm := beq_iff_eq.mp (List.mem_filter.mp hw).2
    exact .inl (by omega)

theorem visits_perm (d : Dependencies) : d.visits.Perm d.leveled := by
  rw [visits_eq]
  refine (flatMap_groups_perm d.leveled d.height).trans (.of_eq ?_)
  refine List.filter_eq_self.mpr fun p hp => ?_
  simpa using level_lt_height hp

/-- The layers have the gates of the circuit. -/
theorem gates_layers_perm (c : Circuit) : ((ofCircuit c).layers.flatten.map (·.gate)).Perm c.gates := by
  have hvisits : (ofCircuit c).visits.map (·.1.gate) = (ofCircuit c).layers.flatten.map (·.gate) := by
    conv_rhs => rw [← List.zipIdx_map_fst 0 (ofCircuit c).layers]
    rw [visits, List.map_flatMap, List.map_flatten, List.map_map, ← List.flatMap_def]
    simp [Function.comp_def]
  have hnodes : (ofCircuit c).leveled.map (·.1.gate) = c.gates := by
    have hgates := congrArg (List.map Prod.fst) (nodes_ofCircuit c)
    rw [List.map_map, List.zipIdx_map_fst, ← map_fst_leveled, List.map_map] at hgates
    exact hgates
  have hperm := (visits_perm (ofCircuit c)).map (·.1.gate)
  rwa [hvisits, hnodes] at hperm

/-- Every gate of the circuit has a node in one of the layers. -/
theorem exists_layer_of_gate {c : Circuit} {g : Gate} (h : g ∈ c.gates) :
    ∃ l ∈ (ofCircuit c).layers.zipIdx, ∃ n ∈ l.1, n.gate = g := by
  obtain ⟨i, hi⟩ := List.mem_iff_getElem?.mp h
  have hnode : (g, i) ∈ (ofCircuit c).nodes.map fun n => (n.gate, n.id) := by
    rw [nodes_ofCircuit]
    exact List.mk_mem_zipIdx_iff_getElem?.mpr hi
  obtain ⟨n, hn, hgate⟩ := List.mem_map.mp hnode
  rw [← map_fst_leveled] at hn
  obtain ⟨v, hv, rfl⟩ := List.mem_map.mp hn
  obtain ⟨l, hl, hmem⟩ := List.mem_flatMap.mp ((visits_perm _).mem_iff.mpr hv)
  obtain ⟨m, hm, rfl⟩ := List.mem_map.mp hmem
  exact ⟨l, hl, m, hm, congrArg Prod.fst hgate⟩

end CircuitMapping.Dependencies
