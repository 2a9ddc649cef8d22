/-
  CircuitMapping.Proofs.Circuit.LongestChains — the layers of a circuit are those of its longest chains.

  A gate precedes a later one that it shares a qubit with, and a chain is a list of gates that each precede the next.
  Nodes are linked to the latest gates on their qubits only, yet levels rise along every chain (`IsChainTo.length_le`),
  because they rise between any two gates that meet. And the links alone make a chain as long as a level allows: each
  level above 0 has a gate on the level below that leads to it (`exists_isChainTo`).

  A gate is on the layer of its level (`onLayer_iff`). So its layer says how long the longest chain is that ends with
  it; layers list every gate once, and there are as many of them as the circuit is deep, forwards or backwards
  (`layers_are_longest_chains`).
-/
import CircuitMapping.Proofs.Circuit.Reversal
import Mathlib.Data.List.Chain
import Mathlib.Order.Bounds.Basic

namespace CircuitMapping.Dependencies

/-! ## Gates that can be appended -/

/-- A gate that fits into the register is appended. -/
theorem add_eq_append {d : Dependencies} {g : Gate} (h : ∀ q ∈ g.qubits, q < d.width) : d.add g = .ok (d.append g) := by
  rw [add, Circuit.find?_eq_none_of_lt h]

theorem foldlM_add_eq_foldl {d : Dependencies} {gs : List Gate} (h : ∀ g ∈ gs, ∀ q ∈ g.qubits, q < d.width) :
    gs.foldlM add d = .ok (gs.foldl append d) := by
  induction gs generalizing d with
  | nil => rfl
  | cons g gs ih =>
    obtain ⟨hg, hgs⟩ := List.forall_mem_cons.mp h
    rw [List.foldlM_cons, add_eq_append hg]
    exact ih (d := d.append g) hgs

/-- The dependencies of a circuit are built gate by gate, and none of its gates is refused. -/
theorem foldlM_add_ofCircuit (c : Circuit) : (empty c.width >>= fun d => c.gates.foldlM add d) = .ok (ofCircuit c) := by
  rw [empty, if_neg c.width_pos.ne']
  exact foldlM_add_eq_foldl (d := ⟨c.width, []⟩) c.forall_mem_gates

variable {c : Circuit} {i l : Nat}

/-! ## Gates on layers -/

/-- The gate at position `i` is on the layer `l`, counted from 0. -/
def OnLayer (c : Circuit) (i l : Nat) : Prop := ∃ ns, (ofCircuit c).layers[l]? = some ns ∧ i ∈ ns.map (·.id)

theorem exists_mem_leveled_iff :
    (∃ p ∈ (ofCircuit c).leveled, p.1.id = i ∧ p.2 = l) ↔ (ofCircuit c).levels[i]? = some l := by
  constructor
  · rintro ⟨p, hp, rfl, rfl⟩
    have hr := List.mem_map_of_mem (f := fun p : Node × Nat => ((p.1.gate, p.1.id), p.2)) hp
    rw [map_leveled] at hr
    exact (mem_ranked.mp hr).2
  · intro h
    obtain ⟨g, hg⟩ := exists_gate_of_level h
    have hr := mem_ranked.mpr ⟨hg, h⟩
    rw [← map_leveled] at hr
    obtain ⟨p, hp, he⟩ := List.mem_map.mp hr
    cases he
    exact ⟨p, hp, rfl, rfl⟩

theorem onLayer_iff : OnLayer c i l ↔ (ofCircuit c).levels[i]? = some l := by
  rw [← exists_mem_leveled_iff]
  unfold OnLayer layers
  constructor
  · rintro ⟨ns, hns, hi⟩
    rw [List.getElem?_map, Option.map_eq_some_iff] at hns
    obtain ⟨l', hl', rfl⟩ := hns
    obtain ⟨hlt, rfl⟩ := List.getElem?_eq_some_iff.mp hl'
    obtain ⟨n, hn, rfl⟩ := List.mem_map.mp hi
    obtain ⟨p, hp, rfl⟩ := List.mem_map.mp hn
    obtain ⟨hp, hl⟩ := List.mem_filter.mp hp
    rw [List.getElem_range] at hl
    exact ⟨p, hp, rfl, beq_iff_eq.mp hl⟩
  · rintro ⟨p, hp, rfl, rfl⟩
    have hmem := List.mem_filter (p := fun p' => p'.2 == p.2).mpr ⟨hp, beq_self_eq_true _⟩
    refine ⟨_, ?_, List.mem_map_of_mem (List.mem_map_of_mem hmem)⟩
    rw [List.getElem?_map, List.getElem?_range (level_lt_height hp)]
    rfl

theorem map_fst_visits (d : Dependencies) : d.visits.map (·.1) = d.layers.flatten := by
  have hlayer : ∀ l : List Node × Nat, (l.1.map (·, l.2)).map (·.1) = l.1 := by
    intro l
    rw [List.map_map]
    exact List.map_id _
  rw [visits, List.map_flatMap]
  simp only [hlayer]
  rw [List.flatMap_def, List.zipIdx_map_fst]

theorem ids_ofCircuit (c : Circuit) : (ofCircuit c).nodes.map (·.id) = List.range c.size := by
  have h := congrArg (List.map Prod.snd) (nodes_ofCircuit c)
  rw [List.map_map, List.zipIdx_map_snd, ← c.size_eq_length] at h
  rw [List.range_eq_range']
  exact h

/-- Every gate is on one layer, and there once. -/
theorem ids_layers_perm (c : Circuit) :
    ((ofCircuit c).layers.flatten.map (·.id)).Perm (List.range c.size) := by
  rw [← map_fst_visits, ← ids_ofCircuit, ← map_fst_leveled]
  exact ((visits_perm _).map _).map _

theorem ascending_of_mem_layers {ns : List Node} (h : ns ∈ (ofCircuit c).layers) :
    (ns.map (·.id)).Pairwise (· < ·) := by
  obtain ⟨l, -, rfl⟩ := List.mem_map.mp h
  have hasc := nodes_ascending c
  rw [← map_fst_leveled, List.pairwise_map] at hasc
  exact List.pairwise_map.mpr (List.pairwise_map.mpr (hasc.filter _))

theorem gate_of_mem_layers {ns : List Node} (h : ns ∈ (ofCircuit c).layers) {n : Node} (hn : n ∈ ns) :
    c.gates[n.id]? = some n.gate := by
  have hz := List.mem_map_of_mem (f := fun n : Node => (n.gate, n.id)) (mem_nodes_of_mem_layers h hn)
  rw [nodes_ofCircuit] at hz
  exact List.mem_zipIdx_iff_getElem?.mp hz

/-! ## Chains -/

/-- The gate at position `i` comes in front of the one at `j`, and they share a qubit. -/
def Precedes (gs : List Gate) (i j : Nat) : Prop := i < j ∧ ∃ g h, gs[i]? = some g ∧ gs[j]? = some h ∧ g.Meets h

/-- Positions of gates that each precede the next, up to the gate at position `i`. -/
structure IsChainTo (gs : List Gate) (i : Nat) (is : List Nat) : Prop where
  inside : ∀ j ∈ is, j < gs.length
  links : is.IsChain (Precedes gs)
  last : is.getLast? = some i

/-- Levels rise along a chain, so it is no longer than the level of its last gate allows. -/
theorem IsChainTo.length_le {j m : Nat} {is : List Nat} (h : IsChainTo c.gates i (j :: is))
    (hm : (ofCircuit c).levels[j]? = some m) (hl : (ofCircuit c).levels[i]? = some l) : m + is.length ≤ l := by
  induction is generalizing j m with
  | nil =>
    cases h.last
    cases hm.symm.trans hl
    exact le_rfl
  | cons k is ih =>
    obtain ⟨⟨hjk, g, g', hg, hg', hmeet⟩, hlinks⟩ := List.isChain_cons_cons.mp h.links
    obtain ⟨m', hm'⟩ := exists_level_of_gate hg'
    have hlt := level_lt_of_meets hg hg' hm hm' hjk hmeet
    have := ih ⟨(List.forall_mem_cons.mp h.inside).2, hlinks, h.last⟩ hm'
    rw [List.length_cons]
    omega

theorem exists_isChainTo (h : (ofCircuit c).levels[i]? = some l) :
    ∃ is, IsChainTo c.gates i is ∧ is.length = l + 1 := by
  induction l generalizing i with
  | zero =>
    obtain ⟨g, hg⟩ := exists_gate_of_level h
    have hlt := (List.getElem?_eq_some_iff.mp hg).1
    exact ⟨[i], ⟨by simpa using hlt, List.isChain_singleton i, rfl⟩, rfl⟩
  | succ l ih =>
    -- the chain up to a gate on the level below is continued
    obtain ⟨g, hg⟩ := exists_gate_of_level h
    have hlt := (List.getElem?_eq_some_iff.mp hg).1
    obtain ⟨j, hj, g', hg', hl, hmeet⟩ := exists_level_below hg h
    obtain ⟨is, his, hlen⟩ := ih hl
    refine ⟨is ++ [i], ⟨?_, ?_, List.getLast?_concat⟩, by rw [List.length_append, hlen]; rfl⟩
    · intro k hk
      rcases List.mem_append.mp hk with hk | hk
      · exact his.inside k hk
      · exact List.mem_singleton.mp hk ▸ hlt
    · refine List.isChain_append.mpr ⟨his.links, List.isChain_singleton i, fun k hk i' hi' => ?_⟩
      rw [his.last] at hk
      cases hk
      cases hi'
      exact ⟨hj, g', g, hg', hg, hmeet⟩

/-- The level of a gate is one less than the length of the longest chain that ends with it. -/
theorem isGreatest_length_isChainTo (h : (ofCircuit c).levels[i]? = some l) :
    IsGreatest {k | ∃ is, IsChainTo c.gates i is ∧ is.length = k} (l + 1) := by
  refine ⟨exists_isChainTo h, ?_⟩
  rintro k ⟨is, his, rfl⟩
  cases is with
  | nil => cases his.last
  | cons j is =>
    obtain ⟨m, hm⟩ := exists_level_of_gate (List.getElem?_eq_getElem (his.inside j (List.mem_cons_self ..)))
    have := his.length_le hm h
    rw [List.length_cons]
    omega

/-- The dependencies of a circuit can be built, and their layers list every gate once: those of a layer, of which there
    is at least one, by ascending positions, and no two of them on a common qubit. A gate is on a later layer than every
    gate that precedes it, the longest chain that ends with it has a gate for its own layer and for every one in front,
    and there are as many layers as the circuit, and also the reversed circuit, is deep. -/
theorem layers_are_longest_chains (c : Circuit) :
    (empty c.width >>= fun d => c.gates.foldlM add d) = .ok (ofCircuit c) ∧
    ((ofCircuit c).layers.flatten.map (·.id)).Perm (List.range c.size) ∧
    (∀ ns ∈ (ofCircuit c).layers, ns ≠ [] ∧ (ns.map (·.id)).Pairwise (· < ·) ∧
      (∀ n ∈ ns, c.gates[n.id]? = some n.gate) ∧ ns.Pairwise fun n m => ¬ n.gate.Meets m.gate) ∧
    (∀ i j l m, Precedes c.gates i j → OnLayer c i l → OnLayer c j m → l < m) ∧
    (∀ i l, OnLayer c i l → IsGreatest {k | ∃ is, IsChainTo c.gates i is ∧ is.length = k} (l + 1)) ∧
    (ofCircuit c).layers.length = c.depth ∧
    c.reversed.depth = c.depth := by
  refine ⟨foldlM_add_ofCircuit c, ids_layers_perm c, ?_, ?_, ?_, ?_, c.depth_reversed⟩
  · intro ns hns
    exact ⟨ne_nil_of_mem_layers hns, ascending_of_mem_layers hns, fun n => gate_of_mem_layers hns,
      pairwise_of_mem_layers hns⟩
  · rintro i j l m ⟨hij, g, h, hg, hh, hmeet⟩ hl hm
    exact level_lt_of_meets hg hh (onLayer_iff.mp hl) (onLayer_iff.mp hm) hij hmeet
  · intro i l h
    exact isGreatest_length_isChainTo (onLayer_iff.mp h)
  · rw [layers, List.length_map, List.length_range, depth_eq_height]

/-- A barrier on three qubits between two gates that meet it on one qubit each. -/
def barred : Circuit where
  width := 8
  entries := Circuit.number [⟨.cz, [3, 7], [], by decide⟩, ⟨.x, [6], [], by decide⟩,
    ⟨.barrier, [7, 5, 2], [], by decide⟩, ⟨.cnot, [5, 6], [], by decide⟩, ⟨.h, [3], [], by decide⟩]
  width_pos := by decide
  in_range := by decide

/-- The CNOT shares no qubit with the CZ gate, and is on a later layer by the barrier between them. -/
theorem layers_are_longest_chains_barred :
    (ofCircuit barred).layers.map (·.map (·.id)) = [[0, 1], [2, 4], [3]] ∧
    (Precedes barred.gates 1 3 ∧ OnLayer barred 1 0 ∧ OnLayer barred 3 2 ∧ 0 < 2) ∧
    IsGreatest {k | ∃ is, IsChainTo barred.gates 3 is ∧ is.length = k} 3 ∧
    barred.depth = 3 ∧
    barred.reversed.depth = 3 := by
  obtain ⟨-, -, -, hascending, hlongest, hlayers, hreversed⟩ := layers_are_longest_chains barred
  have hids : (ofCircuit barred).layers.map (·.map (·.id)) = [[0, 1], [2, 4], [3]] := by decide
  have hprecedes : Precedes barred.gates 1 3 := ⟨by decide, _, _, rfl, rfl, by decide⟩
  have hfirst : OnLayer barred 1 0 := onLayer_iff.mpr (by decide)
  have hlast : OnLayer barred 3 2 := onLayer_iff.mpr (by decide)
  have hdepth : barred.depth = 3 := by rw [← hlayers, ← List.length_map, hids]; rfl
  exact ⟨hids, ⟨hprecedes, hfirst, hlast, hascending 1 3 0 2 hprecedes hfirst hlast⟩, hlongest 3 2 hlast, hdepth,
    hreversed.trans hdepth⟩

end CircuitMapping.Dependencies
