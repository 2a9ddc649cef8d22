/-
  CircuitMapping.Proofs.Layout.Transpositions — SWAPs act on layouts as a group of permutations.

  A SWAP sends every place through a transposition, so SWAPs one after the other send it through the product of their
  transpositions (`placement_swapAll`), and whoever was on a physical qubit is then on its image. The places determine
  a layout, and the layout both tables, so SWAPs with one product have one effect on the tables (`swapAll_congr`): the
  rest is read off the group. The two qubits of a SWAP can be named in either order, SWAPs of other qubits commute with
  it, and SWAPs in reverse have the inverse product (`product_reverse`), which restores both tables.

  Nothing of this asks whether the qubits that are named are occupied, or whether they differ.
-/
import Mathlib.Algebra.Group.End
import CircuitMapping.Proofs.Layout.Bijection

namespace CircuitMapping.Layout

variable {l : Layout} {swaps swaps' : List (Nat × Nat)}

/-! ## Products of transpositions -/

/-- Where SWAPs take a qubit, the first of them first. -/
def product : List (Nat × Nat) → Equiv.Perm Nat
  | [] => 1
  | s :: swaps => product swaps * Equiv.swap s.1 s.2

theorem product_append (swaps swaps' : List (Nat × Nat)) :
    product (swaps ++ swaps') = product swaps' * product swaps := by
  induction swaps with
  | nil => exact (mul_one _).symm
  | cons s swaps ih => rw [List.cons_append, product, ih, product, mul_assoc]

theorem product_reverse (swaps : List (Nat × Nat)) : product swaps.reverse = (product swaps)⁻¹ := by
  induction swaps with
  | nil => exact inv_one.symm
  | cons s swaps ih =>
    have hsingle : product [s] = Equiv.swap s.1 s.2 := one_mul _
    rw [List.reverse_cons, product_append, ih, hsingle, product, mul_inv_rev, Equiv.swap_inv]

theorem product_comm {a b c d : Nat} (hc : c ≠ a ∧ c ≠ b) (hd : d ≠ a ∧ d ≠ b) :
    product [(a, b), (c, d)] = product [(c, d), (a, b)] := by
  have hcommute := Equiv.mul_swap_eq_swap_mul (Equiv.swap a b) c d
  rw [Equiv.swap_apply_of_ne_of_ne hc.1 hc.2, Equiv.swap_apply_of_ne_of_ne hd.1 hd.2] at hcommute
  simp only [product, one_mul, hcommute]

/-! ## Their action on a layout -/

theorem placement_swapAll (l : Layout) (swaps : List (Nat × Nat)) :
    (l.swapAll swaps).placement = l.placement.map (product swaps) := by
  induction swaps generalizing l with
  | nil => exact (List.map_id _).symm
  | cons s swaps ih =>
    refine (ih (l.swap s.1 s.2)).trans ?_
    rw [placement_swap, List.map_map]
    rfl

theorem swapAll_congr (h : product swaps = product swaps') : l.swapAll swaps = l.swapAll swaps' := by
  refine ext ?_
  rw [placement_swapAll, placement_swapAll, h]

theorem physical_swapAll (l : Layout) (swaps : List (Nat × Nat)) (i : Nat) :
    (l.swapAll swaps).physical i = (l.physical i).map (product swaps) := by
  unfold physical
  rw [size_swapAll, placement_swapAll, List.getElem?_map]
  cases l.placement[i]? <;> rfl

/-- Whoever was on a qubit is on its image. -/
theorem logical_swapAll (l : Layout) (swaps : List (Nat × Nat)) (p : Nat) :
    (l.swapAll swaps).logical (product swaps p) = l.logical p := by
  refine Option.ext fun i => ?_
  rw [logical_eq_some, logical_eq_some, placement_swapAll, List.getElem?_map, Option.map_eq_some_iff]
  constructor
  · rintro ⟨q, hq, he⟩
    rwa [← (product swaps).injective he]
  · intro h
    exact ⟨p, h, rfl⟩

theorem swapAll_reverse (l : Layout) (swaps : List (Nat × Nat)) : (l.swapAll swaps).swapAll swaps.reverse = l := by
  refine ext ?_
  rw [placement_swapAll, placement_swapAll, List.map_map, product_reverse]
  exact (List.map_congr_left fun p _ => (product swaps).symm_apply_apply p).trans (List.map_id _)

/-! ## And on its tables -/

namespace Tables

variable {t : Tables}

/-- A SWAP replaces every place by its image under the transposition of the two qubits, whether they are occupied or
    not. It does not matter which of them is named first, SWAPs of other qubits can be moved past it, and SWAPs
    followed by the same ones in reverse leave both tables as they were. Any SWAPs act by the product of their
    transpositions, on the places and on the occupants, and this product is all that their effect depends on. -/
theorem swaps_act_by_product (h : t.Reached) :
    (∀ a b i, (t.swap a b).physical i = (t.physical i).map (Equiv.swap a b)) ∧
    (∀ a b, t.swap a b = t.swap b a) ∧
    (∀ a b c d, c ≠ a ∧ c ≠ b → d ≠ a ∧ d ≠ b → (t.swap a b).swap c d = (t.swap c d).swap a b) ∧
    (∀ swaps, (t.swapAll swaps).swapAll swaps.reverse = t) ∧
    (∀ swaps, (∀ i, (t.swapAll swaps).physical i = (t.physical i).map (product swaps)) ∧
      ∀ p, (t.swapAll swaps).occupants (product swaps p) = t.occupants p) ∧
    ∀ swaps swaps', product swaps = product swaps' → t.swapAll swaps = t.swapAll swaps' := by
  obtain ⟨l, rfl⟩ := h.exists_layout
  have hcongr : ∀ swaps swaps', product swaps = product swaps' → l.tables.swapAll swaps = l.tables.swapAll swaps' := by
    intro swaps swaps' he
    rw [swapAll_tables, swapAll_tables, swapAll_congr he]
  have hphysical : ∀ swaps i, (l.tables.swapAll swaps).physical i = (l.tables.physical i).map (product swaps) := by
    intro swaps i
    rw [swapAll_tables, physical_tables, physical_swapAll, physical_tables]
  refine ⟨fun a b => hphysical [(a, b)], fun a b => ?_, fun a b c d hc hd => ?_, fun swaps => ?_, fun swaps =>
    ⟨hphysical swaps, fun p => ?_⟩, hcongr⟩
  · exact hcongr [(a, b)] [(b, a)] (by simp only [product, Equiv.swap_comm])
  · exact hcongr [(a, b), (c, d)] [(c, d), (a, b)] (product_comm hc hd)
  · rw [swapAll_tables, swapAll_tables, swapAll_reverse]
  · rw [swapAll_tables]
    exact logical_swapAll l swaps p

/-- Qubits 6, 1 and 3 are sent around the free 2 and back. Three SWAPs and a single one have the same product, so they
    have the same effect. -/
theorem swaps_act_by_product_aroundFree : ∃ t, ofList [6, 1, 3] = .ok t ∧
    (t.swap 1 2).physical 1 = .ok 2 ∧ t.swap 1 2 = t.swap 2 1 ∧ (t.swap 1 2).swap 5 6 = (t.swap 5 6).swap 1 2 ∧
    (t.swapAll [(1, 2), (2, 3), (6, 2), (2, 2)]).swapAll [(2, 2), (6, 2), (2, 3), (1, 2)] = t ∧
    t.swapAll [(1, 2), (2, 3), (1, 2)] = t.swap 1 3 := by
  obtain ⟨t, ht⟩ : ∃ t, ofList [6, 1, 3] = .ok t := exists_ofList_iff.mpr (by decide)
  obtain ⟨hphysical, hcomm, hapart, hback, -, hproduct⟩ := swaps_act_by_product (t := t) ⟨_, t, [], ht, rfl⟩
  have hplace : t.physical 1 = .ok 1 := by
    obtain ⟨l, hl, rfl⟩ := exists_layout ht
    cases hl
    rfl
  refine ⟨t, ht, ?_, hcomm 1 2, hapart 1 2 5 6 (by decide) (by decide), hback _, ?_⟩
  · rw [hphysical, hplace]
    rfl
  · refine hproduct _ [(1, 3)] (Equiv.ext fun p => ?_)
    simp only [product, one_mul, Equiv.Perm.mul_apply, Equiv.swap_apply_def]
    split_ifs <;> omega

end Tables

end CircuitMapping.Layout
