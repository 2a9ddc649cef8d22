/-
  CircuitMapping.Proofs.Circuit.Meaning — what gates do to the values of qubits.

  A `Meaning` reads every operation as a function on the values of its qubits, any function that returns as many of
  them; only a SWAP is known to exchange its two. A gate then changes the values on its qubits (`apply`), and these by
  the values that were there (`apply_eq`), so that gates which do not meet commute (`apply_comm`).

  So the order of gates matters only where they meet: gates in another order, in which those that meet are still in
  the order of their positions, do the same (`run_eq_of_perm`).
-/
import CircuitMapping.Proofs.Gate.Kinds

namespace CircuitMapping

universe u

/-- What operations do to the values of their qubits. -/
structure Meaning (W : Type u) where
  effect : Operation → List Binary64 → List W → List W
  length_effect : ∀ op params vs, (effect op params vs).length = vs.length
  effect_swap : ∀ v w, effect .swap [] [v, w] = [w, v]

namespace Meaning

variable {W : Type u} (I : Meaning W)

/-- The values after a gate: its effect on its qubits, what was there on all others. -/
def apply (g : Gate) (v : Nat → W) : Nat → W := fun q =>
  ((I.effect g.op g.params (g.qubits.map v))[g.qubits.idxOf q]?).getD (v q)

/-- The values after some gates, one after the other. -/
def run (gs : List Gate) (v : Nat → W) : Nat → W := gs.foldl (fun v g => I.apply g v) v

@[simp] theorem run_nil (v : Nat → W) : I.run [] v = v := rfl

@[simp] theorem run_cons (g : Gate) (gs : List Gate) (v : Nat → W) : I.run (g :: gs) v = I.run gs (I.apply g v) := rfl

@[simp] theorem run_append (gs hs : List Gate) (v : Nat → W) : I.run (gs ++ hs) v = I.run hs (I.run gs v) :=
  List.foldl_append ..

/-! ## One gate -/

theorem apply_of_notMem {g : Gate} {q : Nat} (h : q ∉ g.qubits) (v : Nat → W) : I.apply g v q = v q := by
  unfold apply
  rw [List.idxOf_eq_length h, List.getElem?_eq_none]
  · rfl
  · simp [I.length_effect]

theorem apply_getElem (g : Gate) (v : Nat → W) {k : Nat} (h : k < g.qubits.length) :
    some (I.apply g v g.qubits[k]) = (I.effect g.op g.params (g.qubits.map v))[k]? := by
  have hk : k < (I.effect g.op g.params (g.qubits.map v)).length := by
    rw [I.length_effect, List.length_map]
    exact h
  unfold apply
  rw [g.nodup.idxOf_getElem, List.getElem?_eq_getElem hk]
  rfl

/-- A gate sees nothing but the values on its qubits, wherever these are. -/
theorem apply_eq {g h : Gate} {v w : Nat → W} (hop : h.op = g.op) (hparams : h.params = g.params)
    (hvalues : h.qubits.map w = g.qubits.map v) {k : Nat} (hg : k < g.qubits.length) (hh : k < h.qubits.length) :
    I.apply h w h.qubits[k] = I.apply g v g.qubits[k] := by
  refine Option.some.inj ?_
  rw [apply_getElem, apply_getElem, hop, hparams, hvalues]

theorem apply_apply_of_mem {g h : Gate} (hm : ¬ g.Meets h) (v : Nat → W) {q : Nat} (hq : q ∈ g.qubits) :
    I.apply g (I.apply h v) q = I.apply h (I.apply g v) q := by
  have apart : ∀ r ∈ g.qubits, r ∉ h.qubits := fun r hg hh => hm ⟨r, hg, hh⟩
  have same : g.qubits.map (I.apply h v) = g.qubits.map v :=
    List.map_congr_left fun r hr => I.apply_of_notMem (apart r hr) v
  obtain ⟨k, hk, rfl⟩ := List.mem_iff_getElem.mp hq
  rw [I.apply_eq rfl rfl same hk hk, I.apply_of_notMem (apart _ hq)]

theorem apply_comm {g h : Gate} (hm : ¬ g.Meets h) (v : Nat → W) :
    I.apply g (I.apply h v) = I.apply h (I.apply g v) := by
  funext q
  by_cases hg : q ∈ g.qubits
  · exact I.apply_apply_of_mem hm v hg
  · by_cases hh : q ∈ h.qubits
    · exact (I.apply_apply_of_mem (fun m => hm m.symm) v hh).symm
    · rw [I.apply_of_notMem hg, I.apply_of_notMem hh, I.apply_of_notMem hh, I.apply_of_notMem hg]

/-! ## Another order -/

theorem run_apply {g : Gate} {gs : List Gate} (hg : ∀ h ∈ gs, ¬ h.Meets g) (v : Nat → W) :
    I.run gs (I.apply g v) = I.apply g (I.run gs v) := by
  induction gs generalizing v with
  | nil => rfl
  | cons h gs ih =>
    rw [run_cons, run_cons, I.apply_comm (hg h (List.mem_cons_self ..))]
    exact ih (fun k hk => hg k (List.mem_cons_of_mem h hk)) _

/-- A gate that meets none of those before it can as well be the first. -/
theorem run_front {g : Gate} {gs hs : List Gate} (hg : ∀ h ∈ gs, ¬ h.Meets g) (v : Nat → W) :
    I.run (gs ++ g :: hs) v = I.run (g :: (gs ++ hs)) v := by
  simp [I.run_apply hg]

theorem run_eq_of_perm {xs ys : List (Gate × Nat)} (hp : ys.Perm xs) (hx : xs.Pairwise fun a b => a.2 < b.2)
    (hy : ys.Pairwise fun a b => a.1.Meets b.1 → a.2 < b.2) (v : Nat → W) :
    I.run (ys.map (·.1)) v = I.run (xs.map (·.1)) v := by
  induction xs generalizing ys v with
  | nil => rw [hp.eq_nil]
  | cons x xs ih =>
    obtain ⟨hfirst, hx⟩ := List.pairwise_cons.mp hx
    obtain ⟨as, bs, rfl⟩ := List.append_of_mem (hp.mem_iff.mpr (List.mem_cons_self ..))
    obtain ⟨-, -, hab⟩ := List.pairwise_append.mp hy
    -- the first gate in the order of positions meets none of those in front of it
    have free : ∀ a ∈ as, ¬ a.1.Meets x.1 := by
      intro a ha hm
      have hlt := hab a ha x (List.mem_cons_self ..) hm
      rcases List.mem_cons.mp (hp.mem_iff.mp (List.mem_append_left _ ha)) with rfl | hmem
      · omega
      · have := hfirst a hmem
        omega
    have hrest : (as ++ bs).Perm xs := (List.perm_middle.symm.trans hp).cons_inv
    have hsorted : (as ++ bs).Pairwise fun a b => a.1.Meets b.1 → a.2 < b.2 :=
      hy.sublist ((List.sublist_cons_self x bs).append_left as)
    rw [List.map_append, List.map_cons, I.run_front (List.forall_mem_map.mpr free), List.map_cons, run_cons, run_cons,
      ← List.map_append]
    exact ih hrest hx hsorted _

end Meaning

end CircuitMapping
