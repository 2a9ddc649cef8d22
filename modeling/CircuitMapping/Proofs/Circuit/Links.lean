/-
  CircuitMapping.Proofs.Circuit.Links — links to the latest gates lead along all chains.

  The dependencies of some gates are read off their list: the table of the latest nodes says which gate acts last on a
  qubit (`latestOn_grown`), so a node is linked to the latest gates in front of it on its own qubits
  (`mem_predecessors_iff`). Links are few, but follow one after the other they lead to every gate that must come first:
  of two gates on one qubit the later is linked to the latest one there, which is the earlier or comes after it
  (`transGen_follows_of_precedes`).

  A table that is kept while the nodes are appended is the one computed from them (`add_of_lt`), whichever calls are
  refused between (`addAll_tracked`).
-/
import CircuitMapping.Circuit.Tracked
import CircuitMapping.Proofs.Circuit.LongestChains
import Mathlib.Data.List.Induction
import Mathlib.Logic.Relation

namespace CircuitMapping.Dependencies

variable {gs : List Gate} {width i j q k : Nat}

/-! ## The latest gate on a qubit -/

/-- The gate at position `i` acts on `q`. -/
def ActsOn (gs : List Gate) (i q : Nat) : Prop := ∃ g, gs[i]? = some g ∧ q ∈ g.qubits

/-- The gate at position `k` is the latest one on `q` in front of position `i`. -/
structure IsLatest (gs : List Gate) (i q k : Nat) : Prop where
  before : k < i
  actsOn : ActsOn gs k q
  last : ∀ j, k < j → j < i → ¬ ActsOn gs j q

theorem precedes_iff : Precedes gs i j ↔ i < j ∧ ∃ q, ActsOn gs i q ∧ ActsOn gs j q := by
  constructor
  · rintro ⟨hij, g, h, hg, hh, q, hqg, hqh⟩
    exact ⟨hij, q, ⟨g, hg, hqg⟩, h, hh, hqh⟩
  · rintro ⟨hij, q, ⟨g, hg, hqg⟩, h, hh, hqh⟩
    exact ⟨hij, g, h, hg, hh, q, hqg, hqh⟩

theorem ActsOn.lt_length (h : ActsOn gs i q) : i < gs.length := by
  obtain ⟨g, hg, -⟩ := h
  exact (List.getElem?_eq_some_iff.mp hg).1

theorem actsOn_take (h : j < i) : ActsOn (gs.take i) j q ↔ ActsOn gs j q := by
  rw [ActsOn, List.getElem?_take_of_lt h]
  rfl

/-- Only the gates in front of it count. -/
theorem isLatest_take : IsLatest (gs.take i) i q k ↔ IsLatest gs i q k := by
  constructor
  · rintro ⟨hlt, hon, hlast⟩
    exact ⟨hlt, (actsOn_take hlt).mp hon, fun j hkj hji hj => hlast j hkj hji ((actsOn_take hji).mpr hj)⟩
  · rintro ⟨hlt, hon, hlast⟩
    exact ⟨hlt, (actsOn_take hlt).mpr hon, fun j hkj hji hj => hlast j hkj hji ((actsOn_take hji).mp hj)⟩

theorem isLatest_succ : IsLatest gs (i + 1) q k ↔ ActsOn gs i q ∧ k = i ∨ ¬ ActsOn gs i q ∧ IsLatest gs i q k := by
  constructor
  · rintro ⟨hlt, hon, hlast⟩
    rcases Nat.lt_or_eq_of_le (Nat.le_of_lt_succ hlt) with hki | rfl
    · exact .inr ⟨hlast i hki (Nat.lt_succ_self i), hki, hon, fun j hkj hji => hlast j hkj (by omega)⟩
    · exact .inl ⟨hon, rfl⟩
  · rintro (⟨hon, rfl⟩ | ⟨hnot, hlt, hon, hlast⟩)
    · exact ⟨Nat.lt_succ_self k, hon, fun j hkj hji => absurd hji (by omega)⟩
    · refine ⟨by omega, hon, fun j hkj hji => ?_⟩
      rcases Nat.lt_or_eq_of_le (Nat.le_of_lt_succ hji) with hji | rfl
      · exact hlast j hkj hji
      · exact hnot

/-- Behind a gate on a qubit there is a latest one, which is no earlier. -/
theorem exists_isLatest (hij : i < j) (h : ActsOn gs i q) : ∃ k, i ≤ k ∧ IsLatest gs j q k := by
  induction j, hij using Nat.le_induction with
  | base => exact ⟨i, le_rfl, isLatest_succ.mpr (.inl ⟨h, rfl⟩)⟩
  | succ j hij ih =>
    by_cases hj : ActsOn gs j q
    · exact ⟨j, Nat.le_of_lt hij, isLatest_succ.mpr (.inl ⟨hj, rfl⟩)⟩
    · obtain ⟨k, hik, hk⟩ := ih
      exact ⟨k, hik, isLatest_succ.mpr (.inr ⟨hj, hk⟩)⟩

/-! ## Nodes by positions -/

/-- The dependencies of some gates on a register. -/
def grown (width : Nat) (gs : List Gate) : Dependencies := gs.foldl append ⟨width, []⟩

theorem grown_concat (width : Nat) (gs : List Gate) (g : Gate) :
    grown width (gs ++ [g]) = (grown width gs).append g := by
  simp only [grown, List.foldl_append, List.foldl_cons, List.foldl_nil]

theorem gates_grown (width : Nat) (gs : List Gate) : (grown width gs).nodes.map (·.gate) = gs := by
  have h := congrArg (List.map Prod.fst) (nodes_foldl gs ⟨width, []⟩)
  rw [List.map_map, List.map_nil, List.nil_append, List.zipIdx_map_fst] at h
  exact h

theorem length_grown (width : Nat) (gs : List Gate) : (grown width gs).nodes.length = gs.length := by
  rw [← List.length_map (·.gate), gates_grown]

theorem width_grown (width : Nat) (gs : List Gate) : (grown width gs).width = width := by
  induction gs using List.reverseRecOn with
  | nil => rfl
  | append_singleton gs g ih =>
    rw [grown_concat]
    exact ih

/-- Each node is appended to the dependencies of the gates in front of it. -/
theorem getElem?_nodes_grown (width : Nat) (gs : List Gate) (i : Nat) :
    (grown width gs).nodes[i]? = gs[i]?.map (grown width (gs.take i)).nodeOf := by
  induction gs using List.reverseRecOn with
  | nil => rfl
  | append_singleton gs g ih =>
    rw [grown_concat, nodes_append]
    rcases Nat.lt_trichotomy i gs.length with hlt | rfl | hgt
    · rw [List.getElem?_append_left (by rwa [length_grown]), ih, List.getElem?_append_left hlt,
        List.take_append_of_le_length (Nat.le_of_lt hlt)]
    · rw [← length_grown width gs, List.getElem?_concat_length, length_grown, List.getElem?_concat_length,
        List.take_left']
      · rfl
      · rfl
    · rw [List.getElem?_eq_none (by simp [length_grown]; omega), List.getElem?_eq_none (by simp; omega)]
      rfl

theorem eq_nodeOf_of_grown {n : Node} (h : (grown width gs).nodes[i]? = some n) :
    ∃ g, gs[i]? = some g ∧ n = (grown width (gs.take i)).nodeOf g ∧ (gs.take i).length = i := by
  rw [getElem?_nodes_grown, Option.map_eq_some_iff] at h
  obtain ⟨g, hg, rfl⟩ := h
  exact ⟨g, hg, rfl, List.length_take_of_le (Nat.le_of_lt (List.getElem?_eq_some_iff.mp hg).1)⟩

theorem latestOn_grown : latestOn (grown width gs).nodes q = some k ↔ IsLatest gs gs.length q k := by
  induction gs using List.reverseRecOn with
  | nil => exact ⟨fun h => (by cases h), fun h => absurd h.before (Nat.not_lt_zero k)⟩
  | append_singleton gs g ih =>
    have hlast : ActsOn (gs ++ [g]) gs.length q ↔ q ∈ g.qubits := by simp [ActsOn]
    have hfront : IsLatest (gs ++ [g]) gs.length q k ↔ IsLatest gs gs.length q k := by
      rw [← isLatest_take, List.take_left]
    rw [grown_concat, nodes_append, latestOn_concat, List.length_append, List.length_singleton, isLatest_succ, hlast,
      hfront, ← ih]
    by_cases hq : q ∈ g.qubits
    · simp [nodeOf, hq, length_grown, eq_comm]
    · simp [nodeOf, hq]

theorem mem_predecessors_iff {n : Node} (h : (grown width gs).nodes[i]? = some n) :
    k ∈ n.predecessors ↔ ∃ q ∈ n.gate.qubits, IsLatest gs i q k := by
  obtain ⟨g, -, rfl, hlen⟩ := eq_nodeOf_of_grown h
  refine mem_predecessorsOf.trans (exists_congr fun q => and_congr_right fun _ => ?_)
  rw [latestOn_grown, hlen, isLatest_take]

theorem id_of_grown {n : Node} (h : (grown width gs).nodes[i]? = some n) : n.id = i := by
  obtain ⟨g, -, rfl, hlen⟩ := eq_nodeOf_of_grown h
  exact (length_grown width _).trans hlen

theorem nodup_foldl_link {xs ids : List Nat} (h : ids.Nodup) : (xs.foldl link ids).Nodup := by
  induction xs generalizing ids with
  | nil => exact h
  | cons x xs ih =>
    refine ih ?_
    unfold link
    split
    · exact h
    · rename_i hx
      exact List.nodup_append.mpr ⟨h, List.nodup_singleton x, fun a ha b hb e =>
        hx (List.mem_singleton.mp hb ▸ e ▸ ha)⟩

theorem nodup_predecessors {n : Node} (h : (grown width gs).nodes[i]? = some n) : n.predecessors.Nodup := by
  obtain ⟨g, -, rfl, -⟩ := eq_nodeOf_of_grown h
  exact nodup_foldl_link List.nodup_nil

/-! ## Following links -/

/-- The node `i` is linked to the node `j`. -/
def Follows (ns : List Node) (i j : Nat) : Prop := ∃ n, ns[i]? = some n ∧ j ∈ n.predecessors

theorem follows_grown_iff :
    Follows (grown width gs).nodes i j ↔ ∃ q, ActsOn gs i q ∧ IsLatest gs i q j := by
  constructor
  · rintro ⟨n, hn, hj⟩
    obtain ⟨q, hq, hlatest⟩ := (mem_predecessors_iff hn).mp hj
    obtain ⟨g, hg, rfl, -⟩ := eq_nodeOf_of_grown hn
    exact ⟨q, ⟨g, hg, hq⟩, hlatest⟩
  · rintro ⟨q, ⟨g, hg, hq⟩, hlatest⟩
    have hn : (grown width gs).nodes[i]? = some ((grown width (gs.take i)).nodeOf g) := by
      rw [getElem?_nodes_grown, hg]
      rfl
    exact ⟨_, hn, (mem_predecessors_iff hn).mpr ⟨q, hq, hlatest⟩⟩

theorem precedes_of_follows (h : Follows (grown width gs).nodes i j) : Precedes gs j i := by
  obtain ⟨q, hi, hlatest⟩ := follows_grown_iff.mp h
  exact precedes_iff.mpr ⟨hlatest.before, q, hlatest.actsOn, hi⟩

/-- Links lead to every earlier gate on a common qubit, over the ones in between. -/
theorem transGen_follows_of_precedes (h : Precedes gs j i) :
    Relation.TransGen (Follows (grown width gs).nodes) i j := by
  induction i using Nat.strongRecOn with
  | ind i ih =>
    obtain ⟨hji, q, hj, hi⟩ := precedes_iff.mp h
    obtain ⟨k, hjk, hlatest⟩ := exists_isLatest hji hj
    have hfollows : Follows (grown width gs).nodes i k := follows_grown_iff.mpr ⟨q, hi, hlatest⟩
    rcases Nat.lt_or_eq_of_le hjk with hjk | rfl
    · exact .head hfollows (ih k hlatest.before (precedes_iff.mpr ⟨hjk, q, hj, hlatest.actsOn⟩))
    · exact .single hfollows

theorem transGen_follows_iff :
    Relation.TransGen (Follows (grown width gs).nodes) i j ↔ Relation.TransGen (Precedes gs) j i := by
  constructor
  · intro h
    induction h with
    | single h => exact .single (precedes_of_follows h)
    | tail _ h ih => exact .head (precedes_of_follows h) ih
  · intro h
    induction h with
    | single h => exact transGen_follows_of_precedes h
    | tail _ h ih => exact (transGen_follows_of_precedes h).trans ih

/-! ## A table that is kept -/

namespace Tracked

/-- Visiting its qubits links a node to the latest ones of a table that does not know it yet. -/
theorem foldl_visit {id : Nat} {qs : List Nat} (h : qs.Nodup) (ids : List Nat) (latest : Nat → Option Nat) :
    qs.foldl (visit id) (ids, latest) =
      ((qs.filterMap latest).foldl link ids, fun r => if r ∈ qs then some id else latest r) := by
  induction qs generalizing ids latest with
  | nil => simp
  | cons q qs ih =>
    obtain ⟨hq, hqs⟩ := List.nodup_cons.mp h
    have hrest : qs.filterMap (fun r => if r = q then some id else latest r) = qs.filterMap latest := by
      refine List.filterMap_congr fun r hr => if_neg ?_
      rintro rfl
      exact hq hr
    rw [List.foldl_cons, visit, ih hqs, hrest]
    refine Prod.ext ?_ (funext fun r => ?_)
    · cases hlatest : latest q <;> simp [hlatest]
    · by_cases hr : r ∈ qs <;> simp [hr]

theorem add_of_lt {d : Dependencies} {g : Gate} (h : ∀ q ∈ g.qubits, q < d.width) :
    d.tracked.add g = ((d.append g).tracked, .ok d.nodes.length) := by
  have hlatest : (fun r => if r ∈ g.qubits then some d.nodes.length else latestOn d.nodes r) =
      latestOn (d.append g).nodes := by
    funext r
    rw [nodes_append, latestOn_concat]
    rfl
  have hfind : (g.qubits.find? fun q => decide (d.tracked.width ≤ q)) = none := Circuit.find?_eq_none_of_lt h
  rw [add, hfind]
  dsimp only [tracked]
  rw [foldl_visit g.nodup, hlatest]
  rfl

/-- A refused gate leaves nodes and table alone. -/
theorem add_of_le {t : Tracked} {g : Gate} (h : ∃ q ∈ g.qubits, t.width ≤ q) :
    ∃ q ∈ g.qubits, t.width ≤ q ∧ t.add g = (t, .error (.range (.dependenciesQubit g.op q t.width))) := by
  obtain ⟨q, hq, hle, hfind⟩ := Circuit.exists_find?_of_le h
  exact ⟨q, hq, hle, by rw [add, hfind]⟩

/-- The gates that fit into a register. -/
def accepted (width : Nat) (gs : List Gate) : List Gate := gs.filter fun g => decide (∀ q ∈ g.qubits, q < width)

theorem addAll_tracked (d : Dependencies) (gs : List Gate) :
    d.tracked.addAll gs = ((accepted d.width gs).foldl append d).tracked := by
  induction gs generalizing d with
  | nil => rfl
  | cons g gs ih =>
    by_cases hg : ∀ q ∈ g.qubits, q < d.width
    · have hstep : d.tracked.addAll (g :: gs) = (d.append g).tracked.addAll gs :=
        congrArg (fun x => addAll x.1 gs) (add_of_lt hg)
      have haccepted : accepted d.width (g :: gs) = g :: accepted d.width gs :=
        List.filter_cons_of_pos (decide_eq_true hg)
      rw [hstep, ih, haccepted]
      rfl
    · obtain ⟨q, -, -, hadd⟩ := add_of_le (t := d.tracked) (by simpa [tracked] using hg)
      have hstep : d.tracked.addAll (g :: gs) = d.tracked.addAll gs := congrArg (fun x => addAll x.1 gs) hadd
      have haccepted : accepted d.width (g :: gs) = accepted d.width gs :=
        List.filter_cons_of_neg (by simpa using hg)
      rw [hstep, ih, haccepted]

theorem empty_eq_ok {t : Tracked} (h : empty width = .ok t) : t = (⟨width, []⟩ : Dependencies).tracked := by
  unfold empty at h
  split at h
  · cases h
  · cases h
    rfl

/-- After any calls in a row, refused ones included, the nodes are those of the gates that were accepted, with the ids
    0, 1, 2, …, and each is linked once to every latest earlier gate on its qubits and to no others. Following links
    leads from a gate to another exactly when a chain of gates, each sharing a qubit with the next, leads to it from the
    other. A gate that fits into the register becomes the next node, and any other is refused and changes nothing. -/
theorem links_are_latest_gates {t : Tracked} (h : empty width = .ok t) (gs : List Gate) :
    (t.addAll gs).gates = accepted width gs ∧
    (∀ i n, (t.addAll gs).nodes[i]? = some n → n.id = i ∧ n.predecessors.Nodup ∧ (∀ k ∈ n.predecessors, k < i) ∧
      ∀ k, k ∈ n.predecessors ↔ ∃ q ∈ n.gate.qubits, IsLatest (t.addAll gs).gates i q k) ∧
    (∀ i j, Relation.TransGen (Follows (t.addAll gs).nodes) i j ↔
      Relation.TransGen (Precedes (t.addAll gs).gates) j i) ∧
    (∀ g, (∀ q ∈ g.qubits, q < width) → ((t.addAll gs).add g).2 = .ok (t.addAll gs).nodes.length) ∧
    ∀ g, (∃ q ∈ g.qubits, width ≤ q) → ∃ q ∈ g.qubits, width ≤ q ∧
      (t.addAll gs).add g = (t.addAll gs, .error (.range (.dependenciesQubit g.op q width))) := by
  obtain rfl := empty_eq_ok h
  have hgrown : (⟨width, []⟩ : Dependencies).tracked.addAll gs = (grown width (accepted width gs)).tracked :=
    addAll_tracked _ gs
  have hgates : (grown width (accepted width gs)).tracked.gates = accepted width gs := gates_grown width _
  have hwidth : (grown width (accepted width gs)).tracked.width = width := width_grown width _
  rw [hgrown, hgates]
  refine ⟨rfl, fun i n hn => ?_, fun i j => transGen_follows_iff, fun g hg => ?_, fun g hg => ?_⟩
  · have hlatest := fun k => mem_predecessors_iff (k := k) hn
    refine ⟨id_of_grown hn, nodup_predecessors hn, fun k hk => ?_, hlatest⟩
    obtain ⟨q, -, hq⟩ := (hlatest k).mp hk
    exact hq.before
  · rw [add_of_lt (d := grown width (accepted width gs)) (by rwa [← hwidth] at hg)]
    rfl
  · obtain ⟨q, hq, hle, hadd⟩ := add_of_le (t := (grown width (accepted width gs)).tracked) (by rwa [← hwidth] at hg)
    rw [hwidth] at hle hadd
    exact ⟨q, hq, hle, hadd⟩

/-- Gates on two, three and one qubits, with two that do not fit into a register of six qubits between them. -/
def crowded : List Gate :=
  [⟨.cz, [0, 5], [], by decide⟩, ⟨.h, [6], [], by decide⟩, ⟨.barrier, [5, 3, 0], [], by decide⟩,
    ⟨.cnot, [9, 5], [], by decide⟩, ⟨.z, [3], [], by decide⟩, ⟨.swap, [0, 5], [], by decide⟩]

/-- The barrier is linked to the first gate once, though it meets it twice, and the last gate to the barrier alone, over
    which it is led to the first. -/
theorem links_are_latest_gates_crowded : ∃ t, empty 6 = .ok t ∧
    (t.addAll crowded).nodes.map (fun n => (n.id, n.predecessors)) = [(0, []), (1, [0]), (2, [1]), (3, [1])] ∧
    (t.addAll crowded).gates = accepted 6 crowded ∧
    Relation.TransGen (Follows (t.addAll crowded).nodes) 3 0 ∧
    ((t.addAll crowded).add ⟨.x, [5], [], by decide⟩).2 = .ok 4 ∧
    (t.addAll crowded).add ⟨.x, [6], [], by decide⟩ =
      (t.addAll crowded, .error (.range (.dependenciesQubit .x 6 6))) := by
  have hempty : empty 6 = .ok (⟨6, []⟩ : Dependencies).tracked := rfl
  obtain ⟨hgates, -, hchains, haccepts, hrefuses⟩ := links_are_latest_gates hempty crowded
  have hfirst : Precedes (accepted 6 crowded) 0 1 := ⟨by decide, _, _, rfl, rfl, by decide⟩
  have hlast : Precedes (accepted 6 crowded) 1 3 := ⟨by decide, _, _, rfl, rfl, by decide⟩
  refine ⟨_, hempty, by decide, hgates, (hchains 3 0).mpr ?_, haccepts _ (by decide), ?_⟩
  · rw [hgates]
    exact .tail (.single hfirst) hlast
  · obtain ⟨q, hq, -, hadd⟩ := hrefuses ⟨.x, [6], [], by decide⟩ ⟨6, List.mem_singleton_self 6, le_rfl⟩
    obtain rfl := List.mem_singleton.mp hq
    exact hadd

end Tracked

end CircuitMapping.Dependencies
