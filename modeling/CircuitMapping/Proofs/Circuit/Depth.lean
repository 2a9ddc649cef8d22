/-
  CircuitMapping.Proofs.Circuit.Depth — levels are no higher than gates that meet make them, and as many as a circuit
  is deep.

  A node follows gates on its own qubits only (`latest`), and above level 0 one of them is on the level below it
  (`below`). Appending a gate keeps both (`tight_append`). With the order of levels this determines every level: it is
  one above the highest level among the earlier gates that meet the gate (`level_lt_of_meets`, `exists_level_below`).

  The depth of a circuit is computed without its dependencies, from the number of levels that each qubit has behind it.
  A gate lifts its qubits above all of them (`rise`), and so does a node that is appended (`topOf_append`), so the depth
  is the number of levels in use (`depth_eq_height`).
-/
import CircuitMapping.Proofs.Circuit.Levels
import Mathlib.Data.List.Nodup

namespace CircuitMapping

/-! ## Levels after some gates -/

namespace Circuit

/-- The levels after a gate: its qubits are one above the highest of them. -/
def rise (levels : Nat → Nat) (g : Gate) : Nat → Nat := lift levels g.qubits (top levels g.qubits + 1)

theorem rise_of_mem {levels : Nat → Nat} {g : Gate} {q : Nat} (h : q ∈ g.qubits) :
    rise levels g q = top levels g.qubits + 1 := if_pos h

theorem rise_of_notMem {levels : Nat → Nat} {g : Gate} {q : Nat} (h : q ∉ g.qubits) : rise levels g q = levels q :=
  if_neg h

theorem le_top {levels : Nat → Nat} {qs : List Nat} {q : Nat} (h : q ∈ qs) : levels q ≤ top levels qs :=
  le_foldl_max_of_mem levels 0 h

theorem depthFrom_cons (levels : Nat → Nat) (g : Gate) (gs : List Gate) :
    depthFrom levels (g :: gs) = max (top levels g.qubits + 1) (depthFrom (rise levels g) gs) := rfl

theorem depthFrom_append (levels : Nat → Nat) (gs hs : List Gate) :
    depthFrom levels (gs ++ hs) = max (depthFrom levels gs) (depthFrom (gs.foldl rise levels) hs) := by
  induction gs generalizing levels with
  | nil => exact (Nat.zero_max _).symm
  | cons g gs ih => rw [List.cons_append, depthFrom_cons, ih, ← max_assoc, ← depthFrom_cons, List.foldl_cons]

end Circuit

namespace Dependencies

/-! ## No level is higher than it has to be -/

/-- Predecessors are earlier gates that meet the gate, and one of them is on the level below. -/
structure Tight (d : Dependencies) : Prop where
  latest : ∀ q k, latestOn d.nodes q = some k → ∃ n, d.nodes[k]? = some n ∧ q ∈ n.gate.qubits
  below : ∀ (i : Nat) (n : Node) (l : Nat), d.nodes[i]? = some n → d.levels[i]? = some (l + 1) →
    ∃ j < i, ∃ m : Node, d.nodes[j]? = some m ∧ d.levels[j]? = some l ∧ m.gate.Meets n.gate

theorem tight_nil (width : Nat) : Tight ⟨width, []⟩ where
  latest q k h := by cases h
  below i n l h := by cases h

theorem Tight.lt_length {d : Dependencies} (h : d.Tight) {q k : Nat} (hk : latestOn d.nodes q = some k) :
    k < d.levels.length := by
  obtain ⟨n, hn, -⟩ := h.latest q k hk
  rw [length_levels]
  exact (List.getElem?_eq_some_iff.mp hn).1

/-- A gate above level 0 is one level above a predecessor. -/
theorem Tight.exists_of_levelAfter {d : Dependencies} (h : d.Tight) {g : Gate} {l : Nat}
    (hl : levelAfter d.levels (d.nodeOf g) = l + 1) :
    ∃ (j : Nat) (m : Node), d.nodes[j]? = some m ∧ d.levels[j]? = some l ∧ m.gate.Meets g := by
  rcases foldl_max_eq_or_mem (fun p => d.levels.getD p 0 + 1) (d.nodeOf g).predecessors 0 with hz | ⟨k, hk, he⟩
  · rw [levelAfter, hz] at hl
    cases hl
  · obtain ⟨q, hq, hlatest⟩ := mem_predecessorsOf.mp hk
    obtain ⟨m, hm, hqm⟩ := h.latest q k hlatest
    have hlt := h.lt_length hlatest
    rw [levelAfter, he, List.getD_eq_getElem?_getD, List.getElem?_eq_getElem hlt, Option.getD_some] at hl
    refine ⟨k, m, hm, ?_, q, hqm, hq⟩
    rw [List.getElem?_eq_getElem hlt, Nat.succ.inj hl]

theorem tight_append {d : Dependencies} (h : d.Tight) (g : Gate) : (d.append g).Tight where
  latest q k hk := by
    rw [nodes_append] at hk ⊢
    rw [latestOn_concat] at hk
    split at hk
    · rename_i hq
      cases hk
      exact ⟨d.nodeOf g, List.getElem?_concat_length, hq⟩
    · obtain ⟨n, hn, hqn⟩ := h.latest q k hk
      exact ⟨n, (List.getElem?_append_left (List.getElem?_eq_some_iff.mp hn).1).trans hn, hqn⟩
  below i n l hn hl := by
    -- nodes and levels before the new one are those of `d`
    have keep : ∀ {j : Nat} {m : Node} {k : Nat}, d.nodes[j]? = some m → d.levels[j]? = some k →
        (d.append g).nodes[j]? = some m ∧ (d.append g).levels[j]? = some k := by
      intro j m k hm hk
      rw [nodes_append, levels_append, List.getElem?_append_left (List.getElem?_eq_some_iff.mp hm).1,
        List.getElem?_append_left (List.getElem?_eq_some_iff.mp hk).1]
      exact ⟨hm, hk⟩
    rw [nodes_append] at hn
    rw [levels_append] at hl
    rcases Nat.lt_trichotomy i d.nodes.length with hlt | rfl | hgt
    · rw [List.getElem?_append_left hlt] at hn
      rw [List.getElem?_append_left (by rwa [length_levels])] at hl
      obtain ⟨j, hj, m, hm, hk, hmeet⟩ := h.below i n l hn hl
      exact ⟨j, hj, m, (keep hm hk).1, (keep hm hk).2, hmeet⟩
    · rw [List.getElem?_concat_length] at hn
      rw [← length_levels, List.getElem?_concat_length] at hl
      cases hn
      obtain ⟨j, m, hm, hk, hmeet⟩ := h.exists_of_levelAfter (Option.some.inj hl)
      exact ⟨j, (List.getElem?_eq_some_iff.mp hm).1, m, (keep hm hk).1, (keep hm hk).2, hmeet⟩
    · rw [List.getElem?_eq_none (by simp; omega)] at hn
      cases hn

theorem tight_foldl {d : Dependencies} (h : d.Tight) (gs : List Gate) : (gs.foldl append d).Tight := by
  induction gs generalizing d with
  | nil => exact h
  | cons g gs ih => exact ih (tight_append h g)

theorem tight_ofCircuit (c : Circuit) : (ofCircuit c).Tight := tight_foldl (tight_nil c.width) c.gates

/-! ## Levels by positions -/

variable {c : Circuit}

theorem length_levels_ofCircuit (c : Circuit) : (ofCircuit c).levels.length = c.gates.length := by
  have hlen := congrArg List.length (nodes_ofCircuit c)
  rw [List.length_map, List.length_zipIdx] at hlen
  rw [length_levels, hlen]

theorem exists_level_of_gate {i : Nat} {g : Gate} (h : c.gates[i]? = some g) :
    ∃ l, (ofCircuit c).levels[i]? = some l := by
  obtain ⟨hlt, -⟩ := List.getElem?_eq_some_iff.mp h
  exact ⟨_, List.getElem?_eq_getElem (by rwa [length_levels_ofCircuit])⟩

theorem exists_gate_of_level {i l : Nat} (h : (ofCircuit c).levels[i]? = some l) : ∃ g, c.gates[i]? = some g := by
  obtain ⟨hlt, -⟩ := List.getElem?_eq_some_iff.mp h
  exact ⟨_, List.getElem?_eq_getElem (by rwa [length_levels_ofCircuit] at hlt)⟩

/-- The gates with their positions and levels. -/
def ranked (c : Circuit) : List ((Gate × Nat) × Nat) := c.gates.zipIdx.zip (ofCircuit c).levels

theorem map_leveled (c : Circuit) : (ofCircuit c).leveled.map (fun p => ((p.1.gate, p.1.id), p.2)) = ranked c := by
  rw [ranked, ← nodes_ofCircuit, List.zip_map_left]
  rfl

theorem mem_ranked {g : Gate} {i l : Nat} :
    ((g, i), l) ∈ ranked c ↔ c.gates[i]? = some g ∧ (ofCircuit c).levels[i]? = some l := by
  rw [List.mem_iff_getElem?]
  constructor
  · intro ⟨j, hj⟩
    obtain ⟨hg, hl⟩ := List.getElem?_zip_eq_some.mp hj
    rw [List.getElem?_zipIdx] at hg
    obtain ⟨g', hg', he⟩ := Option.map_eq_some_iff.mp hg
    cases he
    rw [Nat.zero_add]
    exact ⟨hg', hl⟩
  · intro ⟨hg, hl⟩
    refine ⟨i, List.getElem?_zip_eq_some.mpr ⟨?_, hl⟩⟩
    rw [List.getElem?_zipIdx, hg, Nat.zero_add]
    rfl

theorem map_fst_ranked (c : Circuit) : (ranked c).map Prod.fst = c.gates.zipIdx := by
  refine List.map_fst_zip ?_
  rw [List.length_zipIdx, length_levels_ofCircuit]

theorem map_snd_ranked (c : Circuit) : (ranked c).map Prod.snd = (ofCircuit c).levels := by
  refine List.map_snd_zip ?_
  rw [List.length_zipIdx, length_levels_ofCircuit]

theorem nodup_ranked (c : Circuit) : (ranked c).Nodup := by
  have hpositions : (((ranked c).map Prod.fst).map Prod.snd).Nodup := by
    rw [map_fst_ranked, List.zipIdx_map_snd]
    exact List.nodup_range'
  exact List.Nodup.of_map _ (List.Nodup.of_map _ hpositions)

/-- Levels rise along every qubit. -/
theorem level_lt_of_meets {i j l m : Nat} {g h : Gate} (hi : c.gates[i]? = some g) (hj : c.gates[j]? = some h)
    (hl : (ofCircuit c).levels[i]? = some l) (hm : (ofCircuit c).levels[j]? = some m) (hlt : i < j)
    (hmeet : g.Meets h) : l < m := by
  have hp := mem_ranked.mpr ⟨hi, hl⟩
  have hq := mem_ranked.mpr ⟨hj, hm⟩
  rw [← map_leveled] at hp hq
  obtain ⟨p, hpl, hpe⟩ := List.mem_map.mp hp
  obtain ⟨q, hql, hqe⟩ := List.mem_map.mp hq
  cases hpe
  cases hqe
  exact (leveled_ofCircuit c).ascending p hpl q hql hlt hmeet

theorem getElem?_nodes_ofCircuit (i : Nat) : (ofCircuit c).nodes[i]?.map (·.gate) = c.gates[i]? := by
  have h := congrArg (fun ps => (ps[i]?).map Prod.fst) (nodes_ofCircuit c)
  simpa [List.getElem?_zipIdx, Function.comp_def] using h

/-- Above level 0 an earlier gate on the level below meets the gate. -/
theorem exists_level_below {i l : Nat} {g : Gate} (hi : c.gates[i]? = some g)
    (hl : (ofCircuit c).levels[i]? = some (l + 1)) :
    ∃ j < i, ∃ h, c.gates[j]? = some h ∧ (ofCircuit c).levels[j]? = some l ∧ h.Meets g := by
  rw [← getElem?_nodes_ofCircuit] at hi
  obtain ⟨n, hn, rfl⟩ := Option.map_eq_some_iff.mp hi
  obtain ⟨j, hj, m, hm, hlm, hmeet⟩ := (tight_ofCircuit c).below i n l hn hl
  refine ⟨j, hj, m.gate, ?_, hlm, hmeet⟩
  rw [← getElem?_nodes_ofCircuit, hm]
  rfl

/-- The gates on a level. -/
def gatesOn (c : Circuit) (l : Nat) : List Gate := ((ranked c).filter fun p => p.2 == l).map fun p => p.1.1

theorem map_gate_layers (c : Circuit) :
    (ofCircuit c).layers.map (fun ns => ns.map (·.gate)) = (List.range (ofCircuit c).height).map (gatesOn c) := by
  rw [layers, List.map_map]
  refine List.map_congr_left fun l _ => ?_
  rw [gatesOn, ← map_leveled, List.filter_map, List.map_map]
  show List.map _ (List.map _ _) = _
  rw [List.map_map]
  rfl

/-! ## Depth -/

/-- How many levels a qubit has behind it. -/
def topOf (d : Dependencies) (q : Nat) : Nat := ((latestOn d.nodes q).map fun k => d.levels.getD k 0 + 1).getD 0

theorem topOf_le_iff {d : Dependencies} {q b : Nat} :
    d.topOf q ≤ b ↔ ∀ k, latestOn d.nodes q = some k → d.levels.getD k 0 + 1 ≤ b := by
  unfold topOf
  cases latestOn d.nodes q with
  | none => simp
  | some k => simp

/-- A gate gets the level that is next on its qubits. -/
theorem levelAfter_nodeOf (d : Dependencies) (g : Gate) :
    levelAfter d.levels (d.nodeOf g) = Circuit.top d.topOf g.qubits := by
  refine eq_of_forall_ge_iff fun b => ?_
  rw [levelAfter, Circuit.top, foldl_max_le_iff, foldl_max_le_iff]
  refine and_congr_right fun _ => ?_
  constructor
  · intro h q hq
    refine topOf_le_iff.mpr fun k hk => ?_
    exact h k (mem_predecessorsOf.mpr ⟨q, hq, hk⟩)
  · intro h k hk
    obtain ⟨q, hq, hlatest⟩ := mem_predecessorsOf.mp hk
    exact topOf_le_iff.mp (h q hq) k hlatest

theorem topOf_append {d : Dependencies} (h : d.Tight) (g : Gate) :
    (d.append g).topOf = Circuit.lift d.topOf g.qubits (levelAfter d.levels (d.nodeOf g) + 1) := by
  funext q
  simp only [topOf, Circuit.lift, nodes_append, latestOn_concat, levels_append]
  by_cases hq : q ∈ g.qubits
  · rw [if_pos hq, if_pos (show q ∈ (d.nodeOf g).gate.qubits from hq)]
    simp [nodeOf, ← length_levels]
  · rw [if_neg hq, if_neg (show q ∉ (d.nodeOf g).gate.qubits from hq)]
    cases hk : latestOn d.nodes q with
    | none => rfl
    | some k => simp [List.getElem?_append_left (h.lt_length hk)]

theorem height_foldl {d : Dependencies} (h : d.Tight) (gs : List Gate) :
    (gs.foldl append d).height = max d.height (Circuit.depthFrom d.topOf gs) := by
  induction gs generalizing d with
  | nil => exact (Nat.max_zero _).symm
  | cons g gs ih =>
    rw [List.foldl_cons, ih (tight_append h g), height_append, topOf_append h, levelAfter_nodeOf, max_assoc]
    rfl

/-- A circuit is as deep as it has levels. -/
theorem depth_eq_height (c : Circuit) : c.depth = (ofCircuit c).height := by
  have h := height_foldl (tight_nil c.width) c.gates
  rw [show (⟨c.width, []⟩ : Dependencies).height = 0 from rfl, Nat.zero_max] at h
  exact h.symm

end Dependencies

end CircuitMapping
