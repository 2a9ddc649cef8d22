/-
  CircuitMapping.Proofs.Routing.Chains — SWAPs put out while routing, and what a chain of them achieves.

  A SWAP either takes place, counted, put out and applied to the layout alike, or is counted and fails (`swap_cases`);
  so a list of SWAPs takes place up to the first that fails (`swapAll_cases`). Where the register has room for them,
  nothing but the budget stops them (`swapAll_of_le`, `swapAll_of_lt`). The chain along a path leaves its first
  qubit where it is and moves the others round in a circle (`carry_chain`): the last one comes to the second place
  (`carry_chain_last`), so that the occupants of the two ends are coupled afterwards (`adjacent_carry_chain`).
-/
import CircuitMapping.Proofs.Circuit.Register
import CircuitMapping.Proofs.Device.Paths
import CircuitMapping.Proofs.Layout.Exchanges
import CircuitMapping.Routing.SwapChain
import Mathlib.GroupTheory.Perm.List

namespace CircuitMapping

open Success

namespace Transit

/-- `t'` is `t` after some exchanges, each counted, put out and applied to the layout. -/
structure Exchanged (t : Transit) (xs : List Exchange) (t' : Transit) : Prop where
  layout : t'.layout = t.layout.after xs
  gates : t'.out.gates = t.out.gates ++ xs.map Exchange.gate
  width : t'.out.width = t.out.width
  used : t'.budget.used = t.budget.used + xs.length
  limit : t'.budget.limit = t.budget.limit

theorem Exchanged.refl (t : Transit) : t.Exchanged [] t := ⟨rfl, by simp, rfl, rfl, rfl⟩

theorem Exchanged.trans {t u v : Transit} {xs ys : List Exchange} (h : t.Exchanged xs u) (h' : u.Exchanged ys v) :
    t.Exchanged (xs ++ ys) v where
  layout := by rw [h'.layout, h.layout, Layout.after_append]
  gates := by rw [h'.gates, h.gates, List.map_append, List.append_assoc]
  width := h'.width.trans h.width
  used := by rw [h'.used, h.used, List.length_append, Nat.add_assoc]
  limit := h'.limit.trans h.limit

/-- A SWAP takes place or is only counted. -/
theorem swap_cases (t : Transit) (g : Gate) (a b : Nat) :
    (∃ (hne : a ≠ b) (t' : Transit), t.swap g a b = (t', none) ∧ t.Exchanged [⟨a, b, hne⟩] t') ∨
    (∃ e, t.swap g a b = ({ t with budget := t.budget.spend }, some e)) := by
  unfold swap
  simp only
  split
  · exact .inr ⟨_, rfl⟩
  · split
    · rename_i e _
      exact .inr ⟨e, rfl⟩
    · rename_i out hout
      obtain ⟨s, hs, hadd⟩ := bind_eq_ok.mp hout
      obtain ⟨hne, rfl⟩ := Exchange.gate_of_swap hs
      obtain ⟨-, hw, hg⟩ := Circuit.add_eq_ok hadd
      exact .inl ⟨hne, _, rfl, ⟨rfl, hg, hw, rfl, rfl⟩⟩

/-- SWAPs one after the other take place up to the first that fails, which is only counted. -/
theorem swapAll_cases (t : Transit) (g : Gate) (swaps : List (Nat × Nat)) :
    ∃ (xs : List Exchange) (u : Transit), t.Exchanged xs u ∧
      ((t.swapAll g swaps = (u, none) ∧ xs.map Exchange.pair = swaps) ∨
       (∃ e, t.swapAll g swaps = ({ u with budget := u.budget.spend }, some e) ∧
          xs.map Exchange.pair <+: swaps ∧ xs.length < swaps.length)) := by
  induction swaps generalizing t with
  | nil => exact ⟨[], t, .refl t, .inl ⟨rfl, rfl⟩⟩
  | cons s rest ih =>
    obtain ⟨a, b⟩ := s
    rcases swap_cases t g a b with ⟨hne, t', ht, hx⟩ | ⟨e, ht⟩
    · have hrest : t.swapAll g ((a, b) :: rest) = t'.swapAll g rest := by simp only [swapAll, ht]
      obtain ⟨xs, u, hu, h⟩ := ih t'
      refine ⟨⟨a, b, hne⟩ :: xs, u, hx.trans hu, ?_⟩
      rcases h with ⟨h, hp⟩ | ⟨e, h, hp, hl⟩
      · exact .inl ⟨hrest.trans h, by simp [Exchange.pair, hp]⟩
      · refine .inr ⟨e, hrest.trans h, ?_, by simpa using hl⟩
        exact List.prefix_cons_inj (a, b) |>.mpr hp
    · refine ⟨[], t, .refl t, .inr ⟨e, ?_, List.nil_prefix, by simp⟩⟩
      simp only [swapAll, ht]

theorem exchanged_of_swapAll {t t' : Transit} {g : Gate} {swaps : List (Nat × Nat)}
    (h : t.swapAll g swaps = (t', none)) : ∃ xs : List Exchange, xs.map Exchange.pair = swaps ∧ t.Exchanged xs t' := by
  obtain ⟨xs, u, hu, h' | ⟨e, h', -⟩⟩ := swapAll_cases t g swaps
  · rw [h] at h'
    obtain ⟨rfl, -⟩ := Prod.mk.inj h'.1
    exact ⟨xs, h'.2, hu⟩
  · rw [h] at h'
    cases (Prod.mk.inj h').2

theorem exchanged_of_walk {t t' : Transit} {g : Gate} {path : List Nat} {swaps : List (Nat × Nat)}
    (h : t.walk g path = (t', .ok swaps)) :
    swaps = chain path ∧ ∃ xs : List Exchange, xs.map Exchange.pair = chain path ∧ t.Exchanged xs t' := by
  unfold walk at h
  split at h
  · cases (Prod.mk.inj h).2
  · rename_i u hu
    obtain ⟨rfl, hs⟩ := Prod.mk.inj h
    cases hs
    exact ⟨rfl, exchanged_of_swapAll hu⟩

/-! ## What stops SWAPs -/

theorem swap_of_lt {t : Transit} (g : Gate) {x : Exchange} (hb : t.budget.used < t.budget.limit)
    (ha : x.a < t.out.width) (hx : x.b < t.out.width) : ∃ t', t.swap g x.a x.b = (t', none) ∧ t.Exchanged [x] t' := by
  obtain ⟨out, hout⟩ := Circuit.exists_add (c := t.out) (g := x.gate) (by simp [Exchange.gate, ha, hx])
  obtain ⟨-, hw, hg⟩ := Circuit.add_eq_ok hout
  refine ⟨⟨t.layout.swap x.a x.b, t.budget.spend, out⟩, ?_, ⟨rfl, hg, hw, rfl, rfl⟩⟩
  have hex : t.budget.spend.isExceeded = false := decide_eq_false (by simp only [Budget.spend]; omega)
  simp only [swap, hex, Bool.false_eq_true, if_false, x.swap_eq_ok, bind, Except.bind, hout]

theorem swap_of_le {t : Transit} (g : Gate) (a b : Nat) (hb : t.budget.limit ≤ t.budget.used) :
    t.swap g a b = ({ t with budget := t.budget.spend },
      some (.swapBudget t.budget.limit (t.budget.used + 1) g.text)) := by
  have hex : t.budget.spend.isExceeded = true := decide_eq_true (by simp only [Budget.spend]; omega)
  simp only [swap, hex, if_true]
  rfl

/-- Within the budget all SWAPs take place. -/
theorem swapAll_of_le {t : Transit} (g : Gate) {xs : List Exchange}
    (hx : ∀ x ∈ xs, x.a < t.out.width ∧ x.b < t.out.width) (hb : t.budget.used + xs.length ≤ t.budget.limit) :
    ∃ t', t.swapAll g (xs.map Exchange.pair) = (t', none) ∧ t.Exchanged xs t' := by
  induction xs generalizing t with
  | nil => exact ⟨t, rfl, .refl t⟩
  | cons x xs ih =>
    rw [List.length_cons] at hb
    obtain ⟨ha, hx'⟩ := hx x (List.mem_cons_self ..)
    obtain ⟨u, hu, hxu⟩ := swap_of_lt g (by omega) ha hx'
    have hroom : ∀ y ∈ xs, y.a < u.out.width ∧ y.b < u.out.width := by
      rw [hxu.width]
      exact fun y hy => hx y (List.mem_cons_of_mem x hy)
    have hused : u.budget.used + xs.length ≤ u.budget.limit := by
      rw [hxu.used, hxu.limit, List.length_singleton]
      omega
    obtain ⟨t', ht, hxs⟩ := ih hroom hused
    refine ⟨t', ?_, hxu.trans hxs⟩
    simp only [List.map_cons, Exchange.pair, swapAll, hu]
    exact ht

/-- Beyond the budget the first SWAP that it does not cover is refused. -/
theorem swapAll_of_lt {t : Transit} (g : Gate) {xs : List Exchange}
    (hx : ∀ x ∈ xs, x.a < t.out.width ∧ x.b < t.out.width) (hle : t.budget.used ≤ t.budget.limit)
    (hb : t.budget.limit < t.budget.used + xs.length) :
    ∃ t', t.swapAll g (xs.map Exchange.pair) = (t', some (.swapBudget t.budget.limit (t.budget.limit + 1) g.text)) := by
  induction xs generalizing t with
  | nil =>
    rw [List.length_nil] at hb
    omega
  | cons x xs ih =>
    rw [List.length_cons] at hb
    by_cases hfull : t.budget.used = t.budget.limit
    · refine ⟨{ t with budget := t.budget.spend }, ?_⟩
      simp only [List.map_cons, Exchange.pair, swapAll, swap_of_le g x.a x.b hfull.ge, hfull]
    · obtain ⟨ha, hx'⟩ := hx x (List.mem_cons_self ..)
      obtain ⟨u, hu, hxu⟩ := swap_of_lt g (by omega) ha hx'
      have hroom : ∀ y ∈ xs, y.a < u.out.width ∧ y.b < u.out.width := by
        rw [hxu.width]
        exact fun y hy => hx y (List.mem_cons_of_mem x hy)
      have hused := hxu.used
      have hlimit := hxu.limit
      rw [List.length_singleton] at hused
      obtain ⟨t', ht⟩ := ih hroom (by omega) (by omega)
      rw [hlimit] at ht
      refine ⟨t', ?_⟩
      simp only [List.map_cons, Exchange.pair, swapAll, hu]
      exact ht

/-- A gate that is put out goes to the qubits of the layout; nothing else changes. -/
theorem emit_eq_ok {t t' : Transit} {g : Gate} (h : t.emit g = .ok t') :
    ∃ p, t.layout.place g = .ok p ∧ (∀ q ∈ p.qubits, q < t.out.width) ∧ t'.layout = t.layout ∧
      t'.budget = t.budget ∧ t'.out.width = t.out.width ∧ t'.out.gates = t.out.gates ++ [p] := by
  obtain ⟨p, hp, h⟩ := bind_eq_ok.mp h
  obtain ⟨out, hout, h⟩ := bind_eq_ok.mp h
  obtain ⟨hq, hw, hg⟩ := Circuit.add_eq_ok hout
  rw [← pure_eq_ok.mp h]
  exact ⟨p, hp, hq, rfl, rfl, hw, hg⟩

/-! ## Chains along paths -/

theorem mem_of_mem_pairs {xs : List Nat} {p : Nat × Nat} (h : p ∈ pairs xs) : p.1 ∈ xs ∧ p.2 ∈ xs :=
  ⟨(List.of_mem_zip h).1, List.mem_of_mem_tail (List.of_mem_zip h).2⟩

theorem transpose_eq_swap (a b p : Nat) : Layout.transpose a b p = Equiv.swap a b p := rfl

/-- SWAPs down the neighbouring pairs of a list take every qubit of it to the next place, and the last to the first. -/
theorem carry_pairs_reverse {ps : List Nat} {xs : List Exchange} (h : xs.map Exchange.pair = (pairs ps).reverse)
    (p : Nat) : Exchange.carry xs p = ps.formPerm p := by
  induction ps generalizing xs with
  | nil =>
    obtain rfl : xs = [] := List.map_eq_nil_iff.mp h
    rfl
  | cons a ps ih =>
    cases ps with
    | nil =>
      obtain rfl : xs = [] := List.map_eq_nil_iff.mp h
      rfl
    | cons b ps =>
      have hpairs : pairs (a :: b :: ps) = (a, b) :: pairs (b :: ps) := rfl
      rw [hpairs, List.reverse_cons] at h
      obtain ⟨ys, zs, rfl, hys, hzs⟩ := List.map_eq_append_iff.mp h
      obtain ⟨z, rfl, hz⟩ := List.map_eq_singleton_iff.mp hzs
      have hza : z.a = a := congrArg Prod.fst hz
      have hzb : z.b = b := congrArg Prod.snd hz
      rw [Exchange.carry_append, ih hys, List.formPerm_cons_cons, Equiv.Perm.mul_apply]
      simp only [Exchange.carry_cons, Exchange.carry_nil, hza, hzb]
      exact transpose_eq_swap a b _

/-- What a chain along a path does to every qubit. -/
theorem carry_chain {path : List Nat} {xs : List Exchange} (h : xs.map Exchange.pair = chain path) (p : Nat) :
    Exchange.carry xs p = path.tail.formPerm p := carry_pairs_reverse h p

theorem carry_chain_last {p q : Nat} {ps : List Nat} {xs : List Exchange}
    (h : xs.map Exchange.pair = chain (p :: q :: ps)) :
    Exchange.carry xs ((p :: q :: ps).getLast (List.cons_ne_nil _ _)) = q := by
  rw [carry_chain h, List.getLast_cons (List.cons_ne_nil q ps)]
  exact List.formPerm_apply_getLast q ps

theorem carry_chain_first {p : Nat} {ps : List Nat} {xs : List Exchange} (h : xs.map Exchange.pair = chain (p :: ps))
    (hp : p ∉ ps) : Exchange.carry xs p = p :=
  (carry_chain h p).trans (List.formPerm_apply_of_notMem hp)

/-- Neighbouring pairs of a list are related as its neighbours are. -/
theorem rel_of_mem_pairs {R : Nat → Nat → Prop} {xs : List Nat} (h : xs.IsChain R) {p : Nat × Nat}
    (hp : p ∈ pairs xs) : R p.1 p.2 := by
  induction xs with
  | nil => cases hp
  | cons x xs ih =>
    cases xs with
    | nil => cases hp
    | cons y xs =>
      obtain ⟨hxy, hxs⟩ := List.isChain_cons_cons.mp h
      rcases List.mem_cons.mp hp with rfl | hp
      · exact hxy
      · exact ih hxs hp

theorem length_chain (path : List Nat) : (chain path).length = path.length - 2 := by
  simp only [chain, pairs, List.length_reverse, List.length_zip, List.length_tail]
  omega

/-- A chain along distinct qubits is a list of exchanges. -/
theorem exists_chain {path : List Nat} (h : path.Nodup) : ∃ xs : List Exchange, xs.map Exchange.pair = chain path :=
  Exchange.exists_map_pair fun _ hp => rel_of_mem_pairs h.tail.isChain (List.mem_reverse.mp hp)

/-- A chain along a path is on couplings. -/
theorem adjacent_of_mem_chain {d : Device} {path : List Nat} {a b : Nat} (h : d.IsPath path a b) {xs : List Exchange}
    (hxs : xs.map Exchange.pair = chain path) : ∀ x ∈ xs, d.adjacent x.a x.b = true := by
  intro x hx
  have hm : x.pair ∈ chain path := hxs ▸ List.mem_map_of_mem hx
  exact rel_of_mem_pairs h.coupled.tail (List.mem_reverse.mp hm)

/-- After a chain along a path the occupants of its two ends sit on coupled qubits. -/
theorem adjacent_carry_chain {d : Device} {path : List Nat} {a b : Nat} (h : d.IsPath path a b) (hne : a ≠ b)
    {xs : List Exchange} (hxs : xs.map Exchange.pair = chain path) :
    d.adjacent (Exchange.carry xs a) (Exchange.carry xs b) = true := by
  match path, h, hxs with
  | [], h, _ => cases h.head
  | [p], h, _ =>
    have hp : p = a := Option.some.inj h.head
    have hq : p = b := Option.some.inj h.last
    exact absurd (hp.symm.trans hq) hne
  | p :: q :: ps, h, hxs =>
    obtain rfl : p = a := Option.some.inj h.head
    have hlast : (p :: q :: ps).getLast (List.cons_ne_nil _ _) = b :=
      Option.some.inj ((List.getLast?_eq_some_getLast _).symm.trans h.last)
    rw [carry_chain_first hxs (List.nodup_cons.mp h.nodup).1, ← hlast, carry_chain_last hxs]
    exact (List.isChain_cons_cons.mp h.coupled).1

end Transit

end CircuitMapping
