/-
  CircuitMapping.Proofs.Routing.SwapChains — what a chain of SWAPs leaves, at its end or where it is stopped.

  The chain along a path of `k` qubits consists of `k - 2` SWAPs of neighbours, from the end of the path down to its
  second place (`chain_eq_descent`). A SWAP that is refused has been counted and nothing else, and there are three
  reasons for it (`Refusal`): the budget is spent, the two qubits are one, or one of them is not in the register. So a
  chain stops at the first SWAP that is refused (`swapAll_eq_error`), with the gates put out, the layout and the budget
  in step: as many SWAPs of the chain are put out as are applied to the layout, and the budget has counted these and
  the one refused (`chain_is_consistent_at_every_exit`). That holds along any list of qubits.

  Along distinct qubits in a register and a budget that have room, no SWAP is refused, and the occupants of all qubits
  but the first are moved round in a circle (`chain_shifts_occupants`).
-/
import CircuitMapping.Proofs.Layout.Tables
import CircuitMapping.Proofs.Routing.Chains

namespace CircuitMapping

open Success

theorem Layout.logical_after_carry (l : Layout) (xs : List Exchange) (p : Nat) :
    (l.after xs).logical (Exchange.carry xs p) = l.logical p := by
  induction xs generalizing l p with
  | nil => rfl
  | cons x xs ih => rw [after_cons, Exchange.carry_cons, ih, logical_swap, transpose_transpose]

namespace Transit

variable {t t' u : Transit} {g : Gate} {path : List Nat} {swaps : List (Nat × Nat)} {xs : List Exchange} {m a b : Nat}
  {e : Error}

/-! ## The SWAPs of a chain -/

/-- The neighbours `path[i - 1]` and `path[i]`, for `i` from the last place of a path down to 2. -/
def descent (path : List Nat) : List (Nat × Nat) :=
  List.ofFn fun j : Fin (path.length - 2) => (path[path.length - 2 - j], path[path.length - 1 - j])

theorem chain_eq_descent (path : List Nat) : chain path = descent path := by
  refine List.ext_getElem ?_ fun j hj _ => ?_
  · rw [length_chain, descent, List.length_ofFn]
  · rw [length_chain] at hj
    simp only [chain, pairs, descent, List.getElem_reverse, List.getElem_zip, List.getElem_tail, List.length_zip,
      List.length_tail, List.getElem_ofFn]
    congr 2
    · omega
    · omega

theorem length_descent (path : List Nat) : (descent path).length = path.length - 2 := List.length_ofFn

/-- The gates of some exchanges are the SWAPs of their qubits. -/
theorem forall₂_gate (xs : List Exchange) :
    List.Forall₂ (fun s h => Gate.swap s.1 s.2 = .ok h) (xs.map Exchange.pair) (xs.map Exchange.gate) := by
  rw [List.forall₂_map_left_iff, List.forall₂_map_right_iff, List.forall₂_same]
  exact fun x _ => x.swap_eq_ok

/-! ## SWAPs that are refused -/

/-- Why a SWAP of `a` and `b` is refused behind `m` others. -/
inductive Refusal (t : Transit) (g : Gate) (m a b : Nat) : Error → Prop
  | budget : t.budget.limit ≤ t.budget.used + m →
      Refusal t g m a b (.swapBudget t.budget.limit (t.budget.used + m + 1) g.text)
  | sameQubits : t.budget.used + m < t.budget.limit → a = b → Refusal t g m a b (.argument (.sameQubits .swap))
  | outside {q : Nat} : t.budget.used + m < t.budget.limit → a ≠ b → t.out.width ≤ q →
      q = a ∨ a < t.out.width ∧ q = b → Refusal t g m a b (.range (.circuitQubit .swap q t.out.width))

theorem find?_pair_eq_some {n q : Nat} (h : ([a, b].find? fun q => decide (n ≤ q)) = some q) :
    n ≤ q ∧ (q = a ∨ a < n ∧ q = b) := by
  by_cases ha : n ≤ a
  · rw [List.find?_cons_of_pos (by simpa using ha)] at h
    cases h
    exact ⟨ha, .inl rfl⟩
  · rw [List.find?_cons_of_neg (by simpa using ha)] at h
    have hq : q = b := List.mem_singleton.mp (List.mem_of_find?_eq_some h)
    have hn : n ≤ q := by simpa using List.find?_some h
    exact ⟨hn, .inr ⟨Nat.not_le.mp ha, hq⟩⟩

theorem add_eq_error {c : Circuit} (h : c.add g = .error e) :
    ∃ q, g.qubits.find? (fun q => decide (c.width ≤ q)) = some q ∧ e = .range (.circuitQubit g.op q c.width) := by
  unfold Circuit.add at h
  split at h
  · rename_i q hq
    cases h
    exact ⟨q, hq, rfl⟩
  · cases h

/-- A SWAP that is refused has been counted, and nothing else. -/
theorem swap_eq_error (h : t.swap g a b = (u, some e)) :
    u = { t with budget := t.budget.spend } ∧ t.Refusal g 0 a b e := by
  unfold swap at h
  dsimp only at h
  split at h
  · rename_i hex
    obtain ⟨rfl, he⟩ := Prod.mk.inj h
    cases he
    have hspent : t.budget.limit < t.budget.used + 1 := of_decide_eq_true hex
    exact ⟨rfl, .budget (by omega)⟩
  · rename_i hex
    have hleft : t.budget.used + 0 < t.budget.limit := by
      have hle : ¬ t.budget.limit < t.budget.used + 1 := fun hlt => hex (decide_eq_true hlt)
      omega
    split at h
    · rename_i e' he'
      obtain ⟨rfl, he⟩ := Prod.mk.inj h
      cases he
      refine ⟨rfl, ?_⟩
      by_cases heq : a = b
      · subst heq
        have hswap : Gate.swap a a = .error (.argument (.sameQubits .swap)) := if_pos rfl
        rw [hswap] at he'
        cases he'
        exact .sameQubits hleft rfl
      · have hswap := Exchange.swap_eq_ok ⟨a, b, heq⟩
        dsimp only at hswap
        rw [hswap] at he'
        obtain ⟨q, hq, rfl⟩ := add_eq_error he'
        obtain ⟨hout, hfirst⟩ := find?_pair_eq_some hq
        exact .outside hleft heq hout hfirst
    · cases (Prod.mk.inj h).2

/-- SWAPs one after the other stop at the first that is refused. -/
theorem swapAll_eq_error (h : t.swapAll g swaps = (t', some e)) : ∃ xs u a b rest,
    swaps = xs.map Exchange.pair ++ (a, b) :: rest ∧ t.Exchanged xs u ∧ u.swap g a b = (t', some e) := by
  induction swaps generalizing t with
  | nil => cases (Prod.mk.inj h).2
  | cons s swaps ih =>
    obtain ⟨a, b⟩ := s
    rcases swap_cases t g a b with ⟨hne, v, hv, hx⟩ | ⟨e', he'⟩
    · simp only [swapAll, hv] at h
      obtain ⟨xs, u, a', b', rest, rfl, hu, hstop⟩ := ih h
      exact ⟨⟨a, b, hne⟩ :: xs, u, a', b', rest, rfl, hx.trans hu, hstop⟩
    · simp only [swapAll, he'] at h
      exact ⟨[], t, a, b, swaps, rfl, .refl t, he'.trans h⟩

/-- What is refused behind some exchanges. -/
theorem Exchanged.refusal (h : t.Exchanged xs u) (hr : u.Refusal g 0 a b e) : t.Refusal g xs.length a b e := by
  have hused := h.used
  cases hr with
  | budget hle =>
    rw [h.limit, hused]
    exact .budget (by rw [← h.limit, ← hused]; exact hle)
  | sameQubits hlt heq => exact .sameQubits (by rw [← h.limit, ← hused]; exact hlt) heq
  | outside hlt hne hq hfirst =>
    rw [h.width] at hq hfirst ⊢
    exact .outside (by rw [← h.limit, ← hused]; exact hlt) hne hq hfirst

/-! ## What a chain leaves -/

/-- Exchanges that are the first of some SWAPs: as many of these are put out as are applied to the layout. -/
theorem Exchanged.in_step (h : t.Exchanged xs u) (hfirsts : xs.map Exchange.pair <+: swaps) :
    List.Forall₂ (fun s h => Gate.swap s.1 s.2 = .ok h) (swaps.take (xs.map Exchange.gate).length)
      (xs.map Exchange.gate) ∧
    u.layout = t.layout.swapAll (swaps.take (xs.map Exchange.gate).length) := by
  have htake : swaps.take (xs.map Exchange.gate).length = xs.map Exchange.pair := by
    rw [List.prefix_iff_eq_take.mp hfirsts, List.length_map, List.length_map]
  rw [htake, h.layout, Layout.after_eq_foldl]
  exact ⟨forall₂_gate xs, rfl⟩

/-- A chain along any list of qubits ends with its circuit, its layout and its budget in step. The gates put out are
    the first SWAPs of the chain, and the same SWAPs have been applied to the layout. When the chain was gone through
    these are all, and the budget has counted them. Otherwise the next SWAP was refused, for one of three reasons, and
    the budget has counted that one too. -/
theorem chain_is_consistent_at_every_exit (t : Transit) (g : Gate) (path : List Nat) :
    ∃ gs, (t.walk g path).1.out.gates = t.out.gates ++ gs ∧ (t.walk g path).1.out.width = t.out.width ∧
      List.Forall₂ (fun s h => Gate.swap s.1 s.2 = .ok h) ((descent path).take gs.length) gs ∧
      (t.walk g path).1.layout = t.layout.swapAll ((descent path).take gs.length) ∧
      (t.walk g path).1.budget.limit = t.budget.limit ∧
      ((t.walk g path).2 = .ok (descent path) ∧ gs.length = path.length - 2 ∧
          (t.walk g path).1.budget.used = t.budget.used + gs.length ∨
        ∃ e a b, (t.walk g path).2 = .error e ∧ (descent path)[gs.length]? = some (a, b) ∧
          t.Refusal g gs.length a b e ∧ (t.walk g path).1.budget.used = t.budget.used + gs.length + 1) := by
  rw [← length_descent, ← chain_eq_descent]
  unfold walk
  cases hw : t.swapAll g (chain path) with
  | mk v r =>
    cases r with
    | none =>
      obtain ⟨xs, hxs, hu⟩ := exchanged_of_swapAll hw
      have hall : xs.map Exchange.pair <+: chain path := by rw [hxs]
      obtain ⟨hgates, hlayout⟩ := hu.in_step hall
      have hlen : (xs.map Exchange.gate).length = (chain path).length := by
        rw [← hxs, List.length_map, List.length_map]
      refine ⟨xs.map Exchange.gate, hu.gates, hu.width, hgates, hlayout, hu.limit, .inl ⟨rfl, hlen, ?_⟩⟩
      rw [List.length_map]
      exact hu.used
    | some e =>
      obtain ⟨xs, u, a, b, rest, hswaps, hu, hstop⟩ := swapAll_eq_error hw
      obtain ⟨rfl, hrefusal⟩ := swap_eq_error hstop
      obtain ⟨hgates, hlayout⟩ := hu.in_step ⟨(a, b) :: rest, hswaps.symm⟩
      refine ⟨xs.map Exchange.gate, hu.gates, hu.width, hgates, hlayout, hu.limit, .inr ⟨e, a, b, rfl, ?_, ?_, ?_⟩⟩
      · rw [hswaps, List.length_map, ← List.length_map Exchange.pair, List.getElem?_append_right (Nat.le_refl _),
          Nat.sub_self]
        rfl
      · rw [List.length_map]
        exact hu.refusal hrefusal
      · rw [List.length_map, ← hu.used]
        rfl

/-- An interaction of the first and the last of three logical qubits. -/
def farPair : Gate := ⟨.cz, [0, 2], [], by decide⟩

/-- Three logical qubits in a register of eight, one SWAP used up and three left. -/
def threePlaced : Transit := ⟨⟨[4, 2, 0], by decide⟩, ⟨4, 1⟩, ⟨8, [], Nat.zero_lt_succ 7, by simp⟩⟩

/-- Along a path that comes back to a qubit, two SWAPs take place before the third is refused. -/
example : (threePlaced.walk farPair [4, 2, 2, 0, 5]).2 = .error (.argument (.sameQubits .swap)) ∧
    (threePlaced.walk farPair [4, 2, 2, 0, 5]).1.layout.placement = [4, 0, 5] ∧
    (threePlaced.walk farPair [4, 2, 2, 0, 5]).1.budget.used = 4 := by decide

/-! ## Where the occupants go -/

/-- The occupants of a path, but not that of its first qubit, have moved one place on, the last one to the second
    place. All others are where they were. -/
structure Shifted (path : List Nat) (hk : 2 ≤ path.length) (l l' : Layout) : Prop where
  last : l'.logical path[1] = l.logical path[path.length - 1]
  between : ∀ i, 1 ≤ i → ∀ _ : i + 1 < path.length, l'.logical path[i + 1] = l.logical path[i]
  first : l'.logical path[0] = l.logical path[0]
  off : ∀ p, p ∉ path → l'.logical p = l.logical p

theorem shifted_after (hk : 2 ≤ path.length) (hnodup : path.Nodup) (hxs : xs.map Exchange.pair = chain path)
    (l : Layout) : Shifted path hk l (l.after xs) := by
  have hmoves : ∀ p, (l.after xs).logical (path.tail.formPerm p) = l.logical p := by
    intro p
    rw [← carry_chain hxs p, Layout.logical_after_carry]
  clear hxs
  obtain _ | ⟨p, _ | ⟨q, ps⟩⟩ := path
  · cases hk
  · cases hk
    contradiction
  obtain ⟨hp, hps⟩ := List.nodup_cons.mp hnodup
  refine ⟨?_, ?_, ?_, ?_⟩
  · exact (congrArg _ (List.formPerm_apply_getElem_length q ps)).symm.trans (hmoves _)
  · intro i hi hlt
    obtain ⟨j, rfl⟩ : ∃ j, i = j + 1 := ⟨i - 1, by omega⟩
    exact (congrArg _ (List.formPerm_apply_lt_getElem (q :: ps) hps j (Nat.lt_of_succ_lt_succ hlt))).symm.trans
      (hmoves _)
  · exact (congrArg _ (List.formPerm_apply_of_notMem hp)).symm.trans (hmoves p)
  · intro r hr
    exact (congrArg _ (List.formPerm_apply_of_notMem (List.not_mem_of_not_mem_cons hr))).symm.trans (hmoves r)

/-- A chain along distinct qubits in a register that has them and a budget that covers it takes place, and moves the
    occupants of the path, if there are any, round in a circle. -/
theorem chain_shifts_occupants (g : Gate) (hk : 2 ≤ path.length) (hnodup : path.Nodup)
    (hwide : ∀ p ∈ path.tail, p < t.out.width) (hbudget : t.budget.used + (path.length - 2) ≤ t.budget.limit) :
    ∃ t' gs, t.walk g path = (t', .ok (descent path)) ∧
      t'.out.gates = t.out.gates ++ gs ∧ List.Forall₂ (fun s h => Gate.swap s.1 s.2 = .ok h) (descent path) gs ∧
      t'.out.width = t.out.width ∧
      t'.budget = ⟨t.budget.limit, t.budget.used + (path.length - 2)⟩ ∧
      Shifted path hk t.layout t'.layout := by
  obtain ⟨xs, hxs⟩ := exists_chain hnodup
  have hlen : xs.length = path.length - 2 := by
    rw [← length_chain, ← hxs, List.length_map]
  have hroom : ∀ x ∈ xs, x.a < t.out.width ∧ x.b < t.out.width := by
    intro x hx
    have hpair : x.pair ∈ chain path := hxs ▸ List.mem_map_of_mem hx
    obtain ⟨ha, hb⟩ := mem_of_mem_pairs (List.mem_reverse.mp hpair)
    exact ⟨hwide _ ha, hwide _ hb⟩
  obtain ⟨t', ht, hx⟩ := swapAll_of_le g hroom (hlen ▸ hbudget)
  rw [hxs] at ht
  refine ⟨t', xs.map Exchange.gate, ?_, hx.gates, ?_, hx.width, ?_, ?_⟩
  · unfold walk
    rw [ht, ← chain_eq_descent]
  · rw [← chain_eq_descent, ← hxs]
    exact forall₂_gate xs
  · rw [← hlen, ← hx.used, ← hx.limit]
  · rw [hx.layout]
    exact shifted_after hk hnodup hxs t.layout

/-- A path over all three of them with a free qubit behind each end. -/
theorem chain_shifts_occupants_threePlaced : ∃ t',
    (2 ≤ [4, 7, 2, 0, 5].length ∧ [4, 7, 2, 0, 5].Nodup ∧ (∀ p ∈ [7, 2, 0, 5], p < threePlaced.out.width) ∧
      threePlaced.budget.used + ([4, 7, 2, 0, 5].length - 2) ≤ threePlaced.budget.limit) ∧
    threePlaced.walk farPair [4, 7, 2, 0, 5] = (t', .ok [(0, 5), (2, 0), (7, 2)]) ∧ t'.budget.used = 4 ∧
    t'.layout.logical 5 = some 2 ∧ t'.layout.logical 0 = some 1 ∧ t'.layout.logical 7 = none ∧
    t'.layout.logical 4 = some 0 := by
  have hmeets : 2 ≤ [4, 7, 2, 0, 5].length ∧ [4, 7, 2, 0, 5].Nodup ∧
      (∀ p ∈ [7, 2, 0, 5], p < threePlaced.out.width) ∧
      threePlaced.budget.used + ([4, 7, 2, 0, 5].length - 2) ≤ threePlaced.budget.limit := by decide
  obtain ⟨t', gs, hwalk, -, -, -, hbudget, hshifted⟩ :=
    chain_shifts_occupants farPair hmeets.1 hmeets.2.1 hmeets.2.2.1 hmeets.2.2.2
  refine ⟨t', hmeets, hwalk, by rw [hbudget]; rfl, ?_, ?_, hshifted.last, hshifted.first⟩
  · exact hshifted.between 3 (by decide) (by decide)
  · exact hshifted.between 2 (by decide) (by decide)

end Transit

end CircuitMapping
