/-
  CircuitMapping.Proofs.Layout.Exchanges — layouts under SWAPs, and gates moved to a layout.

  An `Exchange` is a SWAP of two physical qubits. A list of them, one after the other, sends every occupant along
  `carry`, whoever it is (`placement_after`), so the layout keeps its size, and on a device its qubits as long as the
  exchanges are on nodes (`onDevice_after`). The same exchanges in reverse undo this (`after_reverse`).

  `Places` says what a gate is on the physical qubits of a layout: the same operation with the same parameters on the
  images of its qubits (`places_of_place`). Every gate on logical qubits of the layout can be placed (`exists_place`).
-/
import CircuitMapping.Layout.Basic
import CircuitMapping.Proofs.Success

namespace CircuitMapping

open Success

/-! ## Exchanges -/

/-- A SWAP of two physical qubits. -/
structure Exchange where
  a : Nat
  b : Nat
  ne : a ≠ b
  deriving DecidableEq, Repr

namespace Exchange

def pair (x : Exchange) : Nat × Nat := (x.a, x.b)

theorem fault?_swap {a b : Nat} (h : a ≠ b) : Operation.swap.fault? [a, b] [] = none := by
  refine Operation.fault?_eq_none.mpr ⟨rfl, ?_, rfl, rfl⟩
  simpa using h

def gate (x : Exchange) : Gate := ⟨.swap, [x.a, x.b], [], fault?_swap x.ne⟩

theorem swap_eq_ok (x : Exchange) : Gate.swap x.a x.b = .ok x.gate :=
  (if_neg x.ne).trans (Gate.make_valid (fault?_swap x.ne))

theorem gate_of_swap {a b : Nat} {g : Gate} (h : Gate.swap a b = .ok g) : ∃ hne : a ≠ b, g = gate ⟨a, b, hne⟩ := by
  unfold Gate.swap Gate.pair at h
  split at h
  · cases h
  · rename_i hne
    rw [Gate.make_valid (fault?_swap hne)] at h
    cases h
    exact ⟨hne, rfl⟩

theorem pair_injective {x y : Exchange} (h : x.pair = y.pair) : x = y := by
  cases x; cases y
  obtain ⟨rfl, rfl⟩ := Prod.mk.inj h
  rfl

theorem exists_map_pair {ps : List (Nat × Nat)} (h : ∀ p ∈ ps, p.1 ≠ p.2) :
    ∃ xs : List Exchange, xs.map pair = ps := by
  induction ps with
  | nil => exact ⟨[], rfl⟩
  | cons p ps ih =>
    obtain ⟨xs, hxs⟩ := ih fun q hq => h q (List.mem_cons_of_mem p hq)
    exact ⟨⟨p.1, p.2, h p (List.mem_cons_self ..)⟩ :: xs, by rw [List.map_cons, hxs]; rfl⟩

/-- Where a qubit is taken by some exchanges, one after the other. -/
def carry (xs : List Exchange) (p : Nat) : Nat := xs.foldl (fun p x => Layout.transpose x.a x.b p) p

@[simp] theorem carry_nil (p : Nat) : carry [] p = p := rfl

@[simp] theorem carry_cons (x : Exchange) (xs : List Exchange) (p : Nat) :
    carry (x :: xs) p = carry xs (Layout.transpose x.a x.b p) := rfl

@[simp] theorem carry_append (xs ys : List Exchange) (p : Nat) : carry (xs ++ ys) p = carry ys (carry xs p) :=
  List.foldl_append ..

end Exchange

namespace Layout

theorem transpose_left (a b : Nat) : transpose a b a = b := by simp [transpose]

theorem transpose_right (a b : Nat) : transpose a b b = a := by
  unfold transpose
  split
  · rename_i h; exact h
  · simp

theorem transpose_of_ne {a b p : Nat} (ha : p ≠ a) (hb : p ≠ b) : transpose a b p = p := by simp [transpose, ha, hb]

theorem transpose_mem {a b p : Nat} {ns : List Nat} (ha : a ∈ ns) (hb : b ∈ ns) (hp : p ∈ ns) :
    transpose a b p ∈ ns := by
  unfold transpose
  split
  · exact hb
  · split
    · exact ha
    · exact hp

theorem transpose_transpose (a b p : Nat) : transpose a b (transpose a b p) = p := by
  by_cases ha : p = a
  · rw [ha, transpose_left, transpose_right]
  · by_cases hb : p = b
    · rw [hb, transpose_right, transpose_left]
    · rw [transpose_of_ne ha hb, transpose_of_ne ha hb]

/-- Exchanges in reverse take every qubit back. -/
theorem carry_reverse (xs : List Exchange) (p : Nat) : Exchange.carry xs.reverse (Exchange.carry xs p) = p := by
  induction xs generalizing p with
  | nil => rfl
  | cons x xs ih =>
    rw [List.reverse_cons, Exchange.carry_append, Exchange.carry_cons x xs, ih]
    exact transpose_transpose x.a x.b p

/-- The layout after some exchanges. -/
def after (l : Layout) (xs : List Exchange) : Layout := xs.foldl (fun l x => l.swap x.a x.b) l

@[simp] theorem after_nil (l : Layout) : l.after [] = l := rfl

@[simp] theorem after_cons (l : Layout) (x : Exchange) (xs : List Exchange) :
    l.after (x :: xs) = (l.swap x.a x.b).after xs := rfl

@[simp] theorem after_append (l : Layout) (xs ys : List Exchange) : l.after (xs ++ ys) = (l.after xs).after ys :=
  List.foldl_append ..

theorem after_eq_foldl (l : Layout) (xs : List Exchange) :
    l.after xs = (xs.map Exchange.pair).foldl (fun l x => l.swap x.1 x.2) l := by
  rw [List.foldl_map]
  rfl

theorem placement_after (l : Layout) (xs : List Exchange) :
    (l.after xs).placement = l.placement.map (Exchange.carry xs) := by
  induction xs generalizing l with
  | nil => exact (List.map_id _).symm
  | cons x xs ih =>
    rw [after_cons, ih, placement_swap, List.map_map]
    rfl

theorem getElem?_after {l : Layout} {i p : Nat} (h : l.placement[i]? = some p) (xs : List Exchange) :
    (l.after xs).placement[i]? = some (Exchange.carry xs p) := by
  rw [placement_after, List.getElem?_map, h]
  rfl

theorem size_after (l : Layout) (xs : List Exchange) : (l.after xs).size = l.size := by
  simp [size, placement_after]

theorem ext {l m : Layout} (h : l.placement = m.placement) : l = m := by
  cases l; cases m
  cases h
  rfl

theorem after_reverse (l : Layout) (xs : List Exchange) : (l.after xs).after xs.reverse = l := by
  refine ext ?_
  rw [placement_after, placement_after, List.map_map]
  exact (List.map_congr_left fun p _ => carry_reverse xs p).trans (List.map_id _)

/-- No two logical qubits share a physical one. -/
theorem placement_injective {l : Layout} {i j p : Nat} (hi : l.placement[i]? = some p)
    (hj : l.placement[j]? = some p) : i = j :=
  (List.getElem?_inj (List.getElem?_eq_some_iff.mp hi).1 l.nodup).mp (hi.trans hj.symm)

/-- Every occupant sits on a node of the device. -/
def OnDevice (d : Device) (l : Layout) : Prop := ∀ p ∈ l.placement, p ∈ d.nodes

theorem onDevice_swap {d : Device} {l : Layout} (h : l.OnDevice d) {a b : Nat} (ha : a ∈ d.nodes) (hb : b ∈ d.nodes) :
    (l.swap a b).OnDevice d := by
  intro p hp
  rw [placement_swap] at hp
  obtain ⟨q, hq, rfl⟩ := List.mem_map.mp hp
  exact transpose_mem ha hb (h q hq)

theorem onDevice_after {d : Device} {l : Layout} (h : l.OnDevice d) {xs : List Exchange}
    (hx : ∀ x ∈ xs, d.adjacent x.a x.b = true) : (l.after xs).OnDevice d := by
  induction xs generalizing l with
  | nil => exact h
  | cons x xs ih =>
    have hm := Device.mem_nodes_of_adjacent (hx x (List.mem_cons_self ..))
    exact ih (onDevice_swap h hm.1 hm.2) fun y hy => hx y (List.mem_cons_of_mem _ hy)

theorem onDevice_of_checkOn {d : Device} {l : Layout} {u : Unit} (h : l.checkOn d = .ok u) : l.OnDevice d := by
  intro p hp
  unfold checkOn at h
  simp only at h
  split at h
  · rename_i he
    rw [List.isEmpty_iff, List.filter_eq_nil_iff] at he
    simpa using he p hp
  · cases h

theorem checkOn_of_onDevice {d : Device} {l : Layout} (h : l.OnDevice d) : l.checkOn d = .ok () := by
  unfold checkOn
  refine if_pos ?_
  rw [List.isEmpty_iff, List.filter_eq_nil_iff]
  intro p hp
  simpa using h p hp

theorem lowest_eq_ok {n : Nat} {d : Device} {l : Layout} (h : lowest n d = .ok l) :
    n ≤ d.nodes.length ∧ l.placement = d.nodes.take n := by
  unfold lowest at h
  split at h
  · cases h
  · rename_i hn
    cases h
    exact ⟨by omega, rfl⟩

/-- A layout of `n` qubits on nodes of the device. -/
def Fits (d : Device) (n : Nat) (l : Layout) : Prop := l.size = n ∧ l.OnDevice d

theorem exists_lowest {n : Nat} {d : Device} (h : n ≤ d.nodes.length) : ∃ l, lowest n d = .ok l ∧ l.Fits d n := by
  refine ⟨_, if_neg (by omega), ?_, fun p hp => List.mem_of_mem_take hp⟩
  show (d.nodes.take n).length = n
  rw [List.length_take]
  omega

theorem fits_of_lowest {n : Nat} {d : Device} {l : Layout} (h : lowest n d = .ok l) : l.Fits d n := by
  obtain ⟨l', hl', hfits⟩ := exists_lowest (lowest_eq_ok h).1
  rw [h] at hl'
  cases hl'
  exact hfits

theorem mem_repeated {ps : List Nat} {p : Nat} : p ∈ repeated ps ↔ 1 < ps.count p := by
  rw [repeated, Ascending.mem_ofList, List.mem_filter, decide_eq_true_iff]
  exact ⟨And.right, fun h => ⟨List.count_pos_iff.mp (by omega), h⟩⟩

theorem ofList_eq_ok {ps : List Nat} {l : Layout} (h : ofList ps = .ok l) : l.placement = ps := by
  unfold ofList at h
  split at h
  · cases h; rfl
  · cases h

/-! ## Gates on the qubits of a layout -/

/-- `h` is the gate `g` on the physical qubits where `l` has the logical ones. -/
structure Places (l : Layout) (g h : Gate) : Prop where
  op : h.op = g.op
  params : h.params = g.params
  qubits : List.Forall₂ (fun q p => l.placement[q]? = some p) g.qubits h.qubits

theorem forall₂_of_mapM_physical {l : Layout} {qs ps : List Nat} (h : qs.mapM l.physical = .ok ps) :
    List.Forall₂ (fun q p => l.placement[q]? = some p) qs ps :=
  (forall₂_of_mapM h).imp fun _ _ => physical_eq_ok.mp

theorem make_eq_ok {op : Operation} {qs : List Nat} {ps : List Binary64} {g : Gate} (h : Gate.make op qs ps = .ok g) :
    g.op = op ∧ g.qubits = qs ∧ g.params = ps := by
  unfold Gate.make at h
  split at h
  · cases h; exact ⟨rfl, rfl, rfl⟩
  · cases h

theorem places_of_place {l : Layout} {g h : Gate} (hp : l.place g = .ok h) : l.Places g h := by
  obtain ⟨ps, hps, hr⟩ := bind_eq_ok.mp hp
  unfold Gate.retarget at hr
  split at hr
  · obtain ⟨hop, hqs, hparams⟩ := make_eq_ok hr
    exact ⟨hop, hparams, hqs ▸ forall₂_of_mapM_physical hps⟩
  · cases hr

theorem exists_mapM_physical {l : Layout} {qs : List Nat} (h : ∀ q ∈ qs, q < l.size) :
    ∃ ps, qs.mapM l.physical = .ok ps := by
  refine exists_mapM fun q hq => ?_
  have hlt : q < l.placement.length := h q hq
  exact ⟨l.placement[q], physical_eq_ok.mpr (List.getElem?_eq_getElem hlt)⟩

/-- Distinct logical qubits have distinct places. -/
theorem nodup_of_forall₂ {l : Layout} {qs ps : List Nat} (h : List.Forall₂ (fun q p => l.placement[q]? = some p) qs ps)
    (hq : qs.Nodup) : ps.Nodup := by
  induction h with
  | nil => exact .nil
  | @cons q p qs ps hp hps ih =>
    obtain ⟨hnot, hq⟩ := List.nodup_cons.mp hq
    refine List.nodup_cons.mpr ⟨fun hm => ?_, ih hq⟩
    obtain ⟨q', hq', hp'⟩ := exists_of_forall₂ hps hm
    exact hnot (placement_injective hp' hp ▸ hq')

theorem exists_place {l : Layout} {g : Gate} (h : ∀ q ∈ g.qubits, q < l.size) : ∃ p, l.place g = .ok p := by
  obtain ⟨ps, hps⟩ := exists_mapM_physical h
  have hf := forall₂_of_mapM_physical hps
  exact ⟨_, bind_eq_ok.mpr ⟨ps, hps, Gate.retarget_eq_ok hf.length_eq.symm (nodup_of_forall₂ hf g.nodup)⟩⟩

theorem Places.pair {l : Layout} {g h : Gate} (hp : l.Places g h) {a b : Nat} (hq : g.qubits = [a, b]) :
    ∃ p q, h.qubits = [p, q] ∧ l.placement[a]? = some p ∧ l.placement[b]? = some q := by
  have hf := hp.qubits
  rw [hq] at hf
  obtain ⟨p, ps, ha, hf, hps⟩ := List.forall₂_cons_left_iff.mp hf
  obtain ⟨q, qs, hb, hnil, rfl⟩ := List.forall₂_cons_left_iff.mp hf
  obtain rfl := List.forall₂_nil_left_iff.mp hnil
  exact ⟨p, q, hps, ha, hb⟩

theorem Places.length {l : Layout} {g h : Gate} (hp : l.Places g h) : h.qubits.length = g.qubits.length :=
  hp.qubits.length_eq.symm

/-- A gate acts on a logical qubit when the placed one acts on the physical qubit where the layout has it. -/
theorem Places.mem_iff {l : Layout} {g h : Gate} (hp : l.Places g h) {i q : Nat} (hq : l.placement[i]? = some q) :
    i ∈ g.qubits ↔ q ∈ h.qubits := by
  constructor
  · intro hi
    obtain ⟨k, hk, rfl⟩ := List.mem_iff_getElem.mp hi
    have hk' : k < h.qubits.length := hp.length ▸ hk
    obtain rfl : h.qubits[k] = q := Option.some.inj ((hp.qubits.get hk hk').symm.trans hq)
    exact List.getElem_mem hk'
  · intro hm
    obtain ⟨j, hj, hjq⟩ := exists_of_forall₂ hp.qubits hm
    exact placement_injective hq hjq ▸ hj

theorem Places.onDevice {d : Device} {l : Layout} (hl : l.OnDevice d) {g h : Gate} (hp : l.Places g h) :
    ∀ p ∈ h.qubits, p ∈ d.nodes := by
  intro p hm
  obtain ⟨q, -, hq⟩ := exists_of_forall₂ hp.qubits hm
  exact hl p (List.mem_of_getElem? hq)

end Layout

end CircuitMapping
