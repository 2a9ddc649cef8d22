/-
  CircuitMapping.Proofs.Timing.LateLevels — the levels of a circuit from its other end.

  Two gates are linked when they act on a common qubit with no gate on it in between, which says the same from either
  end. So reversing a circuit turns every link around, with positions counted from the other end
  (`follows_reversed_iff`).

  Levels that rise along links and stay below the depth can be no higher than the levels of the reversed circuit allow,
  counted down from the top: each gate that the reversed circuit has on a level above 0 is followed by one on the level
  below (`Rising.add_lt_depth`). These highest levels do rise along links (`rising_late`), and they are the layers that
  timing as late as possible gives to the gates (`layer_of_late`).
-/
import CircuitMapping.Proofs.Circuit.Links
import CircuitMapping.Proofs.Timing.Sequence

namespace CircuitMapping

namespace Dependencies

variable {gs : List Gate} {c : Circuit} {width i q u v l : Nat}

/-! ## Links turned around -/

theorem actsOn_reverse (h : i < gs.length) : ActsOn gs.reverse (gs.length - 1 - i) q ↔ ActsOn gs i q := by
  rw [ActsOn, List.getElem?_reverse' (by omega : gs.length - 1 - i + i + 1 = gs.length)]
  rfl

theorem follows_reverse (h : Follows (grown width gs).nodes v u) :
    Follows (grown width gs.reverse).nodes (gs.length - 1 - u) (gs.length - 1 - v) := by
  obtain ⟨q, hv, huv, hu, hbetween⟩ := follows_grown_iff.mp h
  have hvn := hv.lt_length
  refine follows_grown_iff.mpr ⟨q, (actsOn_reverse (by omega)).mpr hu, by omega, (actsOn_reverse hvn).mpr hv, ?_⟩
  intro j hvj hju hj
  have hjn : j = gs.length - 1 - (gs.length - 1 - j) := by omega
  rw [hjn, actsOn_reverse (by omega)] at hj
  exact hbetween _ (by omega) (by omega) hj

theorem follows_reversed_iff (hu : u < c.size) (hv : v < c.size) : Follows (ofCircuit c).nodes v u ↔
    Follows (ofCircuit c.reversed).nodes (c.size - 1 - u) (c.size - 1 - v) := by
  have hreversed : ofCircuit c.reversed = grown c.width c.gates.reverse := by
    rw [ofCircuit, Circuit.gates_reversed]
    rfl
  rw [hreversed, c.size_eq_length] at *
  constructor
  · exact follows_reverse
  · intro h
    have hback := follows_reverse h
    rw [List.reverse_reverse, List.length_reverse] at hback
    rwa [show c.gates.length - 1 - (c.gates.length - 1 - v) = v by omega,
      show c.gates.length - 1 - (c.gates.length - 1 - u) = u by omega] at hback

theorem precedes_reverse (h : Precedes gs u v) :
    Precedes gs.reverse (gs.length - 1 - v) (gs.length - 1 - u) := by
  obtain ⟨huv, q, hu, hv⟩ := precedes_iff.mp h
  have hvn := hv.lt_length
  exact precedes_iff.mpr ⟨by omega, q, (actsOn_reverse hvn).mpr hv, (actsOn_reverse (by omega)).mpr hu⟩

/-! ## The highest levels -/

/-- Levels that rise along links and stay below the depth. -/
structure Rising (c : Circuit) (level : Nat → Nat) : Prop where
  rises : ∀ u v, Follows (ofCircuit c).nodes v u → level u < level v
  below : ∀ u < c.size, level u < c.depth

theorem Rising.lt_of_transGen {level : Nat → Nat} (h : Rising c level)
    (hvu : Relation.TransGen (Follows (ofCircuit c).nodes) v u) : level u < level v := by
  induction hvu with
  | single hvu => exact h.rises _ _ hvu
  | tail _ hvu ih => exact (h.rises _ _ hvu).trans ih

/-- Below the top there is room for the gates that have to come behind. -/
theorem Rising.add_lt_depth {level : Nat → Nat} (h : Rising c level) (hi : i < c.size)
    (hl : (ofCircuit c.reversed).levels[c.size - 1 - i]? = some l) : level i + l < c.depth := by
  induction l generalizing i with
  | zero => exact h.below i hi
  | succ l ih =>
    -- the gate that the reversed circuit has on the level below comes behind this one
    obtain ⟨g, hg⟩ := exists_gate_of_level hl
    obtain ⟨j, hj, g', hg', hlj, hmeet⟩ := exists_level_below hg hl
    have hbehind := precedes_reverse ⟨hj, g', g, hg', hg, hmeet⟩
    rw [Circuit.gates_reversed, List.reverse_reverse, List.length_reverse, ← c.size_eq_length,
      show c.size - 1 - (c.size - 1 - i) = i by omega] at hbehind
    have hlt := h.lt_of_transGen (transGen_follows_of_precedes hbehind)
    have := ih (i := c.size - 1 - j) (by omega) (by rwa [show c.size - 1 - (c.size - 1 - j) = j by omega])
    omega

theorem exists_level_reversed (hi : i < c.size) :
    ∃ l < c.depth, (ofCircuit c.reversed).levels[c.size - 1 - i]? = some l := by
  have hlt : c.size - 1 - i < c.reversed.gates.length := by
    rw [Circuit.gates_reversed, List.length_reverse, ← c.size_eq_length]
    omega
  obtain ⟨l, hl⟩ := exists_level_of_gate (List.getElem?_eq_getElem hlt)
  refine ⟨l, ?_, hl⟩
  rw [← c.depth_reversed, depth_eq_height]
  exact mem_levels_ofCircuit.mp (List.mem_of_getElem? hl)

/-- The levels of the reversed circuit, counted down from the top. -/
def late (c : Circuit) (i : Nat) : Nat := c.depth - 1 - (ofCircuit c.reversed).levels.getD (c.size - 1 - i) 0

theorem late_eq (h : (ofCircuit c.reversed).levels[c.size - 1 - i]? = some l) : late c i = c.depth - 1 - l := by
  rw [late, List.getD_eq_getElem?_getD, h, Option.getD_some]

theorem rising_late (c : Circuit) : Rising c (late c) where
  rises u v h := by
    have hprecedes : Precedes c.gates u v := precedes_of_follows h
    obtain ⟨-, q, -, hon⟩ := precedes_iff.mp hprecedes
    have hv : v < c.size := c.size_eq_length ▸ hon.lt_length
    have hu : u < c.size := hprecedes.1.trans hv
    obtain ⟨l, hld, hl⟩ := exists_level_reversed hu
    obtain ⟨m, hmd, hm⟩ := exists_level_reversed hv
    have hreverse := precedes_reverse hprecedes
    rw [← Circuit.gates_reversed, ← c.size_eq_length] at hreverse
    obtain ⟨hlt, g, g', hg, hg', hmeet⟩ := hreverse
    have := level_lt_of_meets hg hg' hm hl hlt hmeet
    rw [late_eq hl, late_eq hm]
    omega
  below u hu := by
    obtain ⟨l, hld, hl⟩ := exists_level_reversed hu
    rw [late_eq hl]
    omega

theorem isGreatest_late (hi : i < c.size) (hl : (ofCircuit c.reversed).levels[c.size - 1 - i]? = some l) :
    IsGreatest {k | ∃ level, Rising c level ∧ level i = k} (c.depth - 1 - l) := by
  refine ⟨⟨late c, rising_late c, late_eq hl⟩, ?_⟩
  rintro k ⟨level, hlevel, rfl⟩
  have := hlevel.add_lt_depth hi hl
  omega

end Dependencies

namespace Scheduler

open Dependencies Success

variable {a : Arithmetic} {s : Scheduler a} {c : Circuit} {r : Schedule} {i l : Nat}

/-! ## Layers as late as possible -/

theorem exists_index_iff (h : s.schedule c = .ok r) : (∃ t ∈ r.timed, t.index = i) ↔ i < c.size := by
  have hperm := (perm_of_schedule h).map Prod.snd
  rw [List.map_map, List.zipIdx_map_snd, ← c.size_eq_length, ← List.range_eq_range'] at hperm
  rw [← List.mem_range, ← hperm.mem_iff, List.mem_map]
  rfl

theorem layer_of_late (hp : s.policy = .asLateAsPossible) (h : s.schedule c = .ok r) {t : TimedGate} (ht : t ∈ r.timed)
    (hl : (ofCircuit c.reversed).levels[c.size - 1 - t.index]? = some l) : t.layer = c.depth - 1 - l := by
  obtain ⟨ts, rfl, ⟨hp', -⟩ | ⟨-, hts⟩⟩ := timed_of_schedule h
  · cases hp.symm.trans hp'
  · obtain ⟨forward, back, -, hback, rfl⟩ := reflected_of_timeBackward hts
    obtain ⟨v, hv, rfl⟩ := List.mem_map.mp ((timed_perm _ _).mem_iff.mp ht)
    obtain ⟨hvg, hvl⟩ := level_of_timeForward hback hv
    have hlt := (List.getElem?_eq_some_iff.mp hvg).1
    rw [Circuit.gates_reversed, List.length_reverse, ← c.size_eq_length] at hlt
    simp only [TimedGate.held, reflect] at hl ⊢
    rw [show c.size - 1 - (c.size - 1 - v.index) = v.index by omega, hvl] at hl
    rw [Option.some.inj hl]

/-- A link between two gates of a circuit is the link between them in the reversed one, turned around, with positions
    counted from the other end. The highest level that a gate can have, when levels rise along links and stay below the
    depth, is its level in the reversed circuit, counted down from the top, and this is the layer that timing as late as
    possible gives to it. The reversed circuit is the one that is built from the reversed gates, and reversed again it
    is the one that is built from the gates of the circuit, with the same register, gates and ids. -/
theorem reversal_turns_links_around (c : Circuit) :
    (∀ u v, u < c.size → v < c.size → (Follows (ofCircuit c).nodes v u ↔
      Follows (ofCircuit c.reversed).nodes (c.size - 1 - u) (c.size - 1 - v))) ∧
    (∀ i, i < c.size → ∃ l < c.depth, OnLayer c.reversed (c.size - 1 - i) l ∧
      IsGreatest {k | ∃ level, Rising c level ∧ level i = k} (c.depth - 1 - l) ∧
      ∀ {a : Arithmetic} (s : Scheduler a) (r : Schedule), s.policy = .asLateAsPossible → s.schedule c = .ok r →
        (∃ t ∈ r.timed, t.index = i) ∧ ∀ t ∈ r.timed, t.index = i → t.layer = c.depth - 1 - l) ∧
    Circuit.ofGates c.width c.gates.reverse = .ok c.reversed ∧
    Circuit.ofGates c.width c.gates = .ok c.reversed.reversed := by
  refine ⟨fun u v => follows_reversed_iff, fun i hi => ?_, Circuit.ofGates_eq_ok_iff.mpr ⟨rfl, rfl⟩,
    Circuit.ofGates_eq_ok_iff.mpr ⟨rfl, ?_⟩⟩
  · obtain ⟨l, hld, hl⟩ := exists_level_reversed hi
    refine ⟨l, hld, onLayer_iff.mpr hl, isGreatest_late hi hl, fun s r hp hr => ?_⟩
    refine ⟨(exists_index_iff hr).mpr hi, ?_⟩
    rintro t ht rfl
    exact layer_of_late hp hr ht hl
  · show Circuit.number c.reversed.gates.reverse = _
    rw [Circuit.gates_reversed, List.reverse_reverse]

/-- The measurement meets neither of the other gates. Its level is 0, its highest one is 1, and this is its layer as
    late as possible. -/
theorem reversal_turns_links_around_besideMeasurement :
    (Follows (ofCircuit besideMeasurement).nodes 1 0 ∧ Follows (ofCircuit besideMeasurement.reversed).nodes 2 1) ∧
    (OnLayer besideMeasurement 2 0 ∧ IsGreatest {k | ∃ level, Rising besideMeasurement level ∧ level 2 = k} 1 ∧
      ∃ r, lateInWords.schedule besideMeasurement = .ok r ∧ ∃ t ∈ r.timed, t.index = 2 ∧ t.layer = 1) ∧
    Circuit.ofGates 5 besideMeasurement.gates = .ok besideMeasurement.reversed.reversed := by
  obtain ⟨hlinks, hlevels, -, htwice⟩ := reversal_turns_links_around besideMeasurement
  have hlink : Follows (ofCircuit besideMeasurement).nodes 1 0 := ⟨_, rfl, by decide⟩
  obtain ⟨r, hr, -⟩ := exists_ok_of_map (x := lateInWords.schedule besideMeasurement) (f := fun r => r.timed.length)
    (b := 3) (by decide +kernel)
  obtain ⟨l, -, hl, hgreatest, hlayers⟩ := hlevels 2 (by decide)
  obtain ⟨⟨t, ht, hindex⟩, hlayer⟩ := hlayers lateInWords r rfl hr
  have hbehind : (ofCircuit besideMeasurement.reversed).levels[0]? = some 0 := by decide
  obtain rfl : 0 = l := Option.some.inj (hbehind.symm.trans (onLayer_iff.mp hl))
  have htop : besideMeasurement.depth - 1 - 0 = 1 := by decide
  rw [htop] at hgreatest hlayer
  exact ⟨⟨hlink, (hlinks 0 1 (by decide) (by decide)).mp hlink⟩,
    ⟨onLayer_iff.mpr (by decide), hgreatest, r, hr, t, ht, hindex, hlayer t ht hindex⟩, htwice⟩

end Scheduler

end CircuitMapping
