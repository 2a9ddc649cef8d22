/-
  CircuitMapping.Proofs.Circuit.Orders — circuits that differ in the order of gates that do not meet.

  Exchanging neighbours that share no qubit (`Exchanges`) moves gates to other positions and keeps the order of those
  that meet (`Reorders`). This alone fixes the levels (`Reorders.level_eq`): a gate above level 0 has a gate that it
  meets on the level below, and that one is in front of it in both orders. So both circuits have the same gates on the
  same levels (`Reorders.ranked_perm`) and the same depth (`Reorders.depth_eq`).

  Reversing both circuits reorders them in the same way, positions counted from the other end (`Reorders.reverse`).
-/
import CircuitMapping.Proofs.Circuit.Depth
import CircuitMapping.Proofs.Circuit.Register
import Mathlib.Algebra.Group.End
import Mathlib.Logic.Equiv.Basic

namespace CircuitMapping

/-- Gates after some exchanges of neighbours that share no qubit, with the position that each gate has got. -/
inductive Exchanges : List Gate → List Gate → Equiv.Perm Nat → Prop
  | refl (gs : List Gate) : Exchanges gs gs 1
  | step {gs : List Gate} {π : Equiv.Perm Nat} (as bs : List Gate) (g h : Gate) :
      Exchanges gs (as ++ g :: h :: bs) π → ¬ g.Meets h →
      Exchanges gs (as ++ h :: g :: bs) (Equiv.swap as.length (as.length + 1) * π)

/-- The same gates at other positions, those that meet in the same order. -/
structure Reorders (gs gs' : List Gate) (π : Equiv.Perm Nat) : Prop where
  length : gs'.length = gs.length
  gates : ∀ i, gs'[π i]? = gs[i]?
  ordered : ∀ i j g h, gs[i]? = some g → gs[j]? = some h → g.Meets h → i < j → π i < π j

namespace Reorders

variable {gs gs' gs'' : List Gate} {π ρ : Equiv.Perm Nat}

protected theorem refl (gs : List Gate) : Reorders gs gs 1 where
  length := rfl
  gates _ := rfl
  ordered _ _ _ _ _ _ _ hlt := hlt

theorem trans (h : Reorders gs gs' π) (h' : Reorders gs' gs'' ρ) : Reorders gs gs'' (ρ * π) where
  length := h'.length.trans h.length
  gates i := (h'.gates (π i)).trans (h.gates i)
  ordered i j g k hi hj hm hlt :=
    h'.ordered (π i) (π j) g k ((h.gates i).trans hi) ((h.gates j).trans hj) hm (h.ordered i j g k hi hj hm hlt)

theorem symm (h : Reorders gs gs' π) : Reorders gs' gs π.symm where
  length := h.length.symm
  gates i := by rw [← h.gates, Equiv.apply_symm_apply]
  ordered i j g k hi hj hm hlt := by
    by_contra hnot
    rw [← π.apply_symm_apply i, h.gates] at hi
    rw [← π.apply_symm_apply j, h.gates] at hj
    rcases Nat.lt_or_eq_of_le (Nat.not_lt.mp hnot) with hgt | heq
    · have := h.ordered _ _ k g hj hi hm.symm hgt
      rw [Equiv.apply_symm_apply, Equiv.apply_symm_apply] at this
      omega
    · have := π.symm.injective heq
      omega

theorem apply_lt (h : Reorders gs gs' π) {i : Nat} (hi : i < gs.length) : π i < gs.length := by
  have hget := (h.gates i).trans (List.getElem?_eq_getElem hi)
  exact h.length ▸ (List.getElem?_eq_some_iff.mp hget).1

theorem mem_of_mem (h : Reorders gs gs' π) {g : Gate} (hg : g ∈ gs) : g ∈ gs' := by
  obtain ⟨i, hi⟩ := List.mem_iff_getElem?.mp hg
  exact List.mem_of_getElem? ((h.gates i).trans hi)

/-- One exchange. -/
theorem swap (as bs : List Gate) {g h : Gate} (hm : ¬ g.Meets h) :
    Reorders (as ++ g :: h :: bs) (as ++ h :: g :: bs) (Equiv.swap as.length (as.length + 1)) where
  length := by simp
  gates i := by
    rcases Nat.lt_trichotomy i as.length with hlt | rfl | hgt
    · rw [Equiv.swap_apply_of_ne_of_ne (by omega) (by omega), List.getElem?_append_left hlt,
        List.getElem?_append_left hlt]
    · rw [Equiv.swap_apply_left]
      simp
    · obtain ⟨k, rfl⟩ := Nat.exists_eq_add_of_lt hgt
      cases k with
      | zero =>
        rw [Equiv.swap_apply_right]
        simp
      | succ k =>
        rw [Equiv.swap_apply_of_ne_of_ne (by omega) (by omega), List.getElem?_append_right (by omega),
          List.getElem?_append_right (by omega), show as.length + (k + 1) + 1 - as.length = k + 2 by omega]
        rfl
  ordered i j k l hi hj hmeet hlt := by
    -- only the two that are exchanged come in another order
    rw [Equiv.swap_apply_def, Equiv.swap_apply_def]
    by_cases hpair : i = as.length ∧ j = as.length + 1
    · obtain ⟨rfl, rfl⟩ := hpair
      simp at hi hj
      exact absurd (hi ▸ hj ▸ hmeet) hm
    · split_ifs <;> omega

end Reorders

theorem Exchanges.reorders {gs gs' : List Gate} {π : Equiv.Perm Nat} (h : Exchanges gs gs' π) : Reorders gs gs' π := by
  induction h with
  | refl => exact .refl _
  | step as bs g h _ hm ih => exact ih.trans (.swap as bs hm)

namespace Reorders

open Dependencies

variable {c c' : Circuit} {π : Equiv.Perm Nat}

/-! ## Levels -/

/-- Every gate keeps its level. -/
theorem level_eq (h : Reorders c.gates c'.gates π) {i l : Nat} (hl : (ofCircuit c).levels[i]? = some l) :
    (ofCircuit c').levels[π i]? = some l := by
  induction l using Nat.strongRecOn generalizing i with
  | ind l ih =>
    obtain ⟨g, hg⟩ := exists_gate_of_level hl
    have hg' : c'.gates[π i]? = some g := (h.gates i).trans hg
    obtain ⟨l', hl'⟩ := exists_level_of_gate hg'
    rw [hl']
    refine congrArg some (le_antisymm ?_ ?_)
    · -- a gate on the level below it in the new order is in front of it in the old one, on that level
      cases l' with
      | zero => exact Nat.zero_le l
      | succ k =>
        obtain ⟨j, hj, g₀, hg₀, hk, hmeet⟩ := exists_level_below hg' hl'
        rw [← π.apply_symm_apply j, h.gates] at hg₀
        obtain ⟨m, hm⟩ := exists_level_of_gate hg₀
        have hlt : π.symm j < i := by
          have := h.symm.ordered j (π i) g₀ g ((h.symm.gates j) ▸ hg₀) hg' hmeet hj
          rwa [Equiv.symm_apply_apply] at this
        have hml := level_lt_of_meets hg₀ hg hm hl hlt hmeet
        have := ih m hml hm
        rw [Equiv.apply_symm_apply, hk] at this
        cases this
        exact hml
    · cases l with
      | zero => exact Nat.zero_le l'
      | succ k =>
        obtain ⟨j, hj, g₀, hg₀, hk, hmeet⟩ := exists_level_below hg hl
        exact level_lt_of_meets ((h.gates j).trans hg₀) hg' (ih k (Nat.lt_succ_self k) hk) hl'
          (h.ordered j i g₀ g hg₀ hg hmeet hj) hmeet

theorem mem_levels (h : Reorders c.gates c'.gates π) {l : Nat} (hl : l ∈ (ofCircuit c).levels) :
    l ∈ (ofCircuit c').levels := by
  obtain ⟨i, hi⟩ := List.mem_iff_getElem?.mp hl
  exact List.mem_of_getElem? (h.level_eq hi)

theorem height_eq (h : Reorders c.gates c'.gates π) : (ofCircuit c').height = (ofCircuit c).height :=
  foldl_max_eq_of_mem_iff (fun _ => ⟨h.symm.mem_levels, h.mem_levels⟩) ..

theorem depth_eq (h : Reorders c.gates c'.gates π) : c'.depth = c.depth := by
  rw [depth_eq_height, depth_eq_height, h.height_eq]

/-- Both circuits have the same gates on the same levels. -/
theorem ranked_perm (h : Reorders c.gates c'.gates π) :
    (ranked c').Perm ((ranked c).map fun p => ((p.1.1, π p.1.2), p.2)) := by
  refine (List.perm_ext_iff_of_nodup (nodup_ranked c') ((nodup_ranked c).map ?_)).mpr ?_
  · intro ⟨⟨g, i⟩, l⟩ ⟨⟨g', i'⟩, l'⟩ he
    simp only [Prod.mk.injEq, EmbeddingLike.apply_eq_iff_eq] at he
    simp only [he]
  · intro ⟨⟨g, i⟩, l⟩
    rw [mem_ranked, List.mem_map]
    constructor
    · intro ⟨hg, hl⟩
      refine ⟨((g, π.symm i), l), mem_ranked.mpr ⟨(h.symm.gates i).trans hg, h.symm.level_eq hl⟩, ?_⟩
      simp
    · intro ⟨⟨⟨g', i'⟩, l'⟩, hp, he⟩
      cases he
      obtain ⟨hg, hl⟩ := mem_ranked.mp hp
      exact ⟨(h.gates i').trans hg, h.level_eq hl⟩

/-- So each layer has the same gates. -/
theorem gatesOn_perm (h : Reorders c.gates c'.gates π) (l : Nat) : (gatesOn c' l).Perm (gatesOn c l) := by
  refine ((h.ranked_perm.filter _).map _).trans (.of_eq ?_)
  rw [List.filter_map, List.map_map]
  rfl

end Reorders

/-! ## Backwards -/

/-- Positions below `n` counted from the other end. -/
def mirror (n : Nat) : Equiv.Perm Nat :=
  Function.Involutive.toPerm (fun i => if i < n then n - 1 - i else i) <| by
    intro i
    dsimp only
    split_ifs <;> omega

theorem mirror_of_lt {n i : Nat} (h : i < n) : mirror n i = n - 1 - i := if_pos h

theorem mirror_lt {n i : Nat} (h : i < n) : mirror n i < n := by
  rw [mirror_of_lt h]
  omega

theorem mirror_mirror (n i : Nat) : mirror n (mirror n i) = i := (mirror n).left_inv i

theorem getElem?_reverse_mirror (gs : List Gate) (i : Nat) : gs.reverse[mirror gs.length i]? = gs[i]? := by
  by_cases h : i < gs.length
  · rw [mirror_of_lt h]
    exact List.getElem?_reverse' (by omega)
  · rw [show mirror gs.length i = i from if_neg h, List.getElem?_eq_none (by simpa using h),
      List.getElem?_eq_none (by simpa using h)]

namespace Reorders

variable {gs gs' : List Gate} {π : Equiv.Perm Nat}

theorem reverse (h : Reorders gs gs' π) :
    Reorders gs.reverse gs'.reverse (mirror gs.length * π * mirror gs.length) where
  length := by
    rw [List.length_reverse, List.length_reverse, h.length]
  gates i := by
    show gs'.reverse[mirror gs.length (π (mirror gs.length i))]? = gs.reverse[i]?
    rw [← h.length, getElem?_reverse_mirror, h.gates, h.length, ← getElem?_reverse_mirror, mirror_mirror]
  ordered i j g k hi hj hm hlt := by
    show mirror gs.length (π (mirror gs.length i)) < mirror gs.length (π (mirror gs.length j))
    have bound : ∀ {i : Nat} {g : Gate}, gs.reverse[i]? = some g → i < gs.length := by
      intro i g hi
      simpa using (List.getElem?_eq_some_iff.mp hi).1
    have hin := bound hi
    have hjn := bound hj
    have hpi := h.apply_lt (mirror_lt hin)
    have hpj := h.apply_lt (mirror_lt hjn)
    have hback : mirror gs.length j < mirror gs.length i := by
      rw [mirror_of_lt hin, mirror_of_lt hjn]
      omega
    rw [← mirror_mirror gs.length i, getElem?_reverse_mirror] at hi
    rw [← mirror_mirror gs.length j, getElem?_reverse_mirror] at hj
    have := h.ordered _ _ k g hj hi hm.symm hback
    rw [mirror_of_lt hpi, mirror_of_lt hpj]
    omega

end Reorders

end CircuitMapping
