/-
  CircuitMapping.Proofs.Timing.Sequence — schedules run layer after layer.

  Gates that meet are in different layers, in program order, and the layers in use are the first ones, as many as the
  circuit is deep (`InLayers`). Timing as soon as possible puts gates on the levels of the circuit. As late as possible
  the layers are the levels of the reversed circuit, counted from the other end, and the reverse is as deep as the
  circuit, so reflection keeps this (`inLayers_reflect`). A gate's level and its level in the reversed circuit stay
  below the depth together, so it is never in a lower layer as late as possible than as soon as possible
  (`layer_le_layer`). None of this depends on how times are added.

  As integers, gates of a lower layer have ended before the delay of any gate of a higher one starts, whether the two
  meet or not (`apart_of_schedule`). In words a start can come out at the other end of the range, before everything
  else (`later_layer_starts_first`), but not where the work of the circuit is a word (`schedule_runs_layers`).
-/
import CircuitMapping.Proofs.Timing.Words

namespace CircuitMapping.Scheduler

open Dependencies Success

variable {a : Arithmetic} {s : Scheduler a} {trailing : Bool} {c : Circuit} {ts us : List TimedGate}

/-! ## Layers -/

/-- Timed gates in `n` layers, none of them empty, gates that meet in different ones. -/
structure InLayers (n : Nat) (ts : List TimedGate) : Prop where
  rising : ∀ t ∈ ts, ∀ u ∈ ts, t.index < u.index → t.gate.Meets u.gate → t.layer < u.layer
  used : ∀ l, (∃ t ∈ ts, t.layer = l) ↔ l < n

theorem InLayers.of_perm {n : Nat} (h : InLayers n ts) (hp : us.Perm ts) : InLayers n us where
  rising t ht u hu := h.rising t (hp.mem_iff.mp ht) u (hp.mem_iff.mp hu)
  used l := by simpa only [hp.mem_iff] using h.used l

theorem InLayers.layer_lt {n : Nat} (h : InLayers n ts) {t : TimedGate} (ht : t ∈ ts) : t.layer < n :=
  (h.used t.layer).mp ⟨t, ht, rfl⟩

theorem inLayers_of_timeForward (h : s.timeForward trailing c = .ok ts) : InLayers c.depth ts where
  rising _ ht _ hu hlt hm := layer_lt_of_timeForward h ht hu hlt hm
  used := exists_layer_iff h

/-- The levels of the reversed circuit are layers of the circuit after reflection, whatever is held of the times. -/
theorem inLayers_reflect (h : s.timeForward true c.reversed = .ok ts) (axis : Int) (b : Arithmetic) :
    InLayers c.depth (ts.map fun t => (reflect axis c.size c.depth t).held b) := by
  have hused := exists_layer_iff h
  rw [c.depth_reversed] at hused
  have hlt : ∀ t ∈ ts, t.layer < c.depth := fun t ht => (hused t.layer).mp ⟨t, ht, rfl⟩
  refine ⟨?_, ?_⟩
  · rintro t' ht' u' hu' hindex hm
    obtain ⟨t, ht, rfl⟩ := List.mem_map.mp ht'
    obtain ⟨u, hu, rfl⟩ := List.mem_map.mp hu'
    simp only [TimedGate.held, reflect] at hindex hm ⊢
    have := layer_lt_of_timeForward h hu ht (by omega) hm.symm
    have := hlt t ht
    omega
  · intro l
    constructor
    · rintro ⟨t', ht', rfl⟩
      obtain ⟨t, ht, rfl⟩ := List.mem_map.mp ht'
      have := hlt t ht
      simp only [TimedGate.held, reflect]
      omega
    · intro hl
      obtain ⟨t, ht, htl⟩ := (hused (c.depth - 1 - l)).mpr (by omega)
      refine ⟨_, List.mem_map_of_mem ht, ?_⟩
      simp only [TimedGate.held, reflect]
      omega

theorem inLayers_of_schedule {r : Schedule} (h : s.schedule c = .ok r) : InLayers c.depth r.timed := by
  obtain ⟨ts, rfl, ⟨-, hts⟩ | ⟨-, hts⟩⟩ := timed_of_schedule h
  · exact (inLayers_of_timeForward hts).of_perm (timed_perm _ ts)
  · obtain ⟨forward, us, -, hus, rfl⟩ := reflected_of_timeBackward hts
    exact (inLayers_reflect hus _ a).of_perm (timed_perm _ _)

/-- Gates of one layer share no qubit. -/
theorem pairwise_of_schedule {r : Schedule} (h : s.schedule c = .ok r) :
    r.timed.Pairwise fun t u => t.layer = u.layer → ∀ q ∈ t.gate.qubits, q ∉ u.gate.qubits := by
  have hindex : r.timed.Pairwise fun t u => t.index ≠ u.index := List.pairwise_map.mp (nodup_index (perm_of_schedule h))
  have hlayers := inLayers_of_schedule h
  refine hindex.imp_of_mem ?_
  intro t u ht hu hne hlayer q hqt hqu
  rcases Nat.lt_or_gt_of_ne hne with hlt | hgt
  · have := hlayers.rising t ht u hu hlt ⟨q, hqt, hqu⟩
    omega
  · have := hlayers.rising u hu t ht hgt ⟨q, hqu, hqt⟩
    omega

/-! ## Both policies -/

theorem forward_of_schedule {r : Schedule} (h : (s.under .asSoonAsPossible).schedule c = .ok r) :
    ∃ ts, s.timeForward false c = .ok ts ∧ r = Schedule.ofTimed c.width ts := by
  obtain ⟨ts, hr, ⟨-, hts⟩ | ⟨hp, -⟩⟩ := timed_of_schedule h
  · exact ⟨ts, hts, hr⟩
  · cases hp

theorem backward_of_schedule {r : Schedule} (h : (s.under .asLateAsPossible).schedule c = .ok r) :
    ∃ ts, s.timeBackward c = .ok ts ∧ r = Schedule.ofTimed c.width ts := by
  obtain ⟨ts, hr, ⟨hp, -⟩ | ⟨-, hts⟩⟩ := timed_of_schedule h
  · cases hp
  · exact ⟨ts, hts, hr⟩

theorem layer_le_layer {asap alap : Schedule} (hasap : (s.under .asSoonAsPossible).schedule c = .ok asap)
    (halap : (s.under .asLateAsPossible).schedule c = .ok alap) {t u : TimedGate} (ht : t ∈ asap.timed)
    (hu : u ∈ alap.timed) (hindex : t.index = u.index) : t.layer ≤ u.layer := by
  obtain ⟨ts, hts, rfl⟩ := forward_of_schedule hasap
  obtain ⟨us, hus, rfl⟩ := backward_of_schedule halap
  obtain ⟨forward, back, -, hback, rfl⟩ := reflected_of_timeBackward hus
  obtain ⟨v, hv, rfl⟩ := List.mem_map.mp ((timed_perm _ _).mem_iff.mp hu)
  obtain ⟨-, htl⟩ := level_of_timeForward hts ((timed_perm _ ts).mem_iff.mp ht)
  obtain ⟨hvg, hvl⟩ := level_of_timeForward hback hv
  have hlt := (List.getElem?_eq_some_iff.mp hvg).1
  rw [Circuit.gates_reversed, List.length_reverse] at hlt
  simp only [TimedGate.held, reflect, Circuit.size_eq_length] at hindex ⊢
  have := level_add_level_lt_height (by omega) htl hvl
  rw [depth_eq_height]
  omega

theorem exists_both (h : s.TimesAll c) : ∃ asap alap, (s.under .asSoonAsPossible).schedule c = .ok asap ∧
    (s.under .asLateAsPossible).schedule c = .ok alap := by
  obtain ⟨asap, hasap⟩ := exists_schedule (s := s.under .asSoonAsPossible) h
  obtain ⟨alap, halap⟩ := exists_schedule (s := s.under .asLateAsPossible) h
  exact ⟨asap, alap, hasap, halap⟩

/-! ## Layer after layer -/

/-- As integers, gates of a lower layer have ended before the delay of a gate of a higher one. -/
theorem apart_of_schedule {s : Scheduler} {r : Schedule} (h : s.schedule c = .ok r) :
    ∀ t ∈ r.timed, ∀ u ∈ r.timed, t.layer < u.layer → t.finish + s.delayOf u.gate ≤ u.start := by
  obtain ⟨ts, rfl, ⟨-, hts⟩ | ⟨-, hts⟩⟩ := timed_of_schedule h
  · intro t ht u hu hlt
    have := (laid_of_timeForward hts).apart t ((timed_perm _ ts).mem_iff.mp ht) u ((timed_perm _ ts).mem_iff.mp hu) hlt
    simpa [release, lead] using this
  · obtain ⟨forward, back, -, hback, rfl⟩ := timeBackward_eq_ok hts
    intro t' ht' u' hu' hlt
    obtain ⟨t, ht, rfl⟩ := List.mem_map.mp ((timed_perm _ _).mem_iff.mp ht')
    obtain ⟨u, hu, rfl⟩ := List.mem_map.mp ((timed_perm _ _).mem_iff.mp hu')
    simp only [reflect] at hlt ⊢
    -- in the reversed circuit the gate of the higher layer comes first, and its delay is behind it
    have := (laid_of_timeForward hback).apart u hu t ht (by omega)
    simp only [release, lead, if_true] at this
    omega

/-- A schedule whose work is a word runs its layers one after the other, each after the gates of the ones before have
    ended, with the delay of its gates in between. In every schedule gates of one layer share no qubit, and the layers
    are as many as the circuit is deep, none of them empty. As late as possible, no gate is in a lower layer than as
    soon as possible. -/
theorem schedule_runs_layers {s : Scheduler .words} {c : Circuit} {r : Schedule} (h : s.schedule c = .ok r) :
    (s.Fits c → ∀ t ∈ r.timed, ∀ u ∈ r.timed, t.layer < u.layer → t.finish + s.delayOf u.gate ≤ u.start) ∧
    (r.timed.Pairwise fun t u => t.layer = u.layer → ∀ q ∈ t.gate.qubits, q ∉ u.gate.qubits) ∧
    (∀ l, (∃ t ∈ r.timed, t.layer = l) ↔ l < c.depth) ∧
    ∃ asap alap, (s.under .asSoonAsPossible).schedule c = .ok asap ∧
      (s.under .asLateAsPossible).schedule c = .ok alap ∧
      ∀ t ∈ asap.timed, ∀ u ∈ alap.timed, t.index = u.index → t.layer ≤ u.layer := by
  obtain ⟨asap, alap, hasap, halap⟩ := exists_both (timesAll_of_schedule h)
  refine ⟨fun hfit => ?_, pairwise_of_schedule h, (inLayers_of_schedule h).used, asap, alap, hasap, halap,
    fun t ht u hu => layer_le_layer hasap halap ht hu⟩
  rw [schedule_eq_exact hfit] at h
  exact apart_of_schedule h

/-- The measurement waits for the first of the two layers, of which no gate is on its qubit. -/
theorem schedule_runs_layers_besideMeasurement : lateInWords.Fits besideMeasurement ∧
    ∃ r, lateInWords.schedule besideMeasurement = .ok r ∧
    (r.timed.map fun t => (t.index, t.layer, t.start, t.finish)) =
      [(0, 0, 2, 154), (2, 1, 159, 1159), (1, 1, 1123, 1159)] ∧
    (∀ t ∈ r.timed, ∀ u ∈ r.timed, t.layer < u.layer → t.finish + lateInWords.delayOf u.gate ≤ u.start) ∧
    (r.timed.Pairwise fun t u => t.layer = u.layer → ∀ q ∈ t.gate.qubits, q ∉ u.gate.qubits) ∧
    (∀ l, (∃ t ∈ r.timed, t.layer = l) ↔ l < besideMeasurement.depth) ∧
    ∃ asap alap, (lateInWords.under .asSoonAsPossible).schedule besideMeasurement = .ok asap ∧
      (lateInWords.under .asLateAsPossible).schedule besideMeasurement = .ok alap ∧
      ∀ t ∈ asap.timed, ∀ u ∈ alap.timed, t.index = u.index → t.layer ≤ u.layer := by
  have hfit : lateInWords.Fits besideMeasurement := by decide +kernel
  obtain ⟨r, hr, ht⟩ := exists_ok_of_map (x := lateInWords.schedule besideMeasurement)
    (f := fun r => r.timed.map fun t => (t.index, t.layer, t.start, t.finish))
    (b := [(0, 0, 2, 154), (2, 1, 159, 1159), (1, 1, 1123, 1159)])
    (by decide +kernel)
  obtain ⟨hapart, hrest⟩ := schedule_runs_layers hr
  exact ⟨hfit, r, hr, ht, hapart hfit, hrest⟩

/-- A gate that takes almost as long as a word can tell. -/
def upToTheEnd : Scheduler .words where
  durations := ⟨[("H", 9223372036854775806), ("X", 1)], []⟩
  policy := .asSoonAsPossible
  gateDelay := 1
  readoutDelay := 0
  clock := 1
  clock_pos := Nat.one_pos

/-- The long gate, and a short one behind it. -/
def shortBehindLong : Circuit where
  width := 13
  entries := Circuit.number [⟨.h, [4], [], by decide⟩, ⟨.x, [4], [], by decide⟩]
  width_pos := by decide
  in_range := by decide

/-- The start of the second gate, one unit after the last word, comes out as the first one. -/
theorem later_layer_starts_first : ∃ r, upToTheEnd.schedule shortBehindLong = .ok r ∧
    (r.timed.map fun t => (t.index, t.layer, t.start, t.finish)) =
      [(1, 1, -9223372036854775808, -9223372036854775807), (0, 0, 1, 9223372036854775807)] ∧
    ¬ ∀ t ∈ r.timed, ∀ u ∈ r.timed, t.layer < u.layer → t.finish + upToTheEnd.delayOf u.gate ≤ u.start := by
  obtain ⟨r, hr, htimes⟩ := exists_ok_of_map (x := upToTheEnd.schedule shortBehindLong)
    (f := fun r => r.timed.map fun t => (t.index, t.layer, t.start, t.finish))
    (b := [(1, 1, -9223372036854775808, -9223372036854775807), (0, 0, 1, 9223372036854775807)])
    (by decide +kernel)
  refine ⟨r, hr, htimes, fun hle => ?_⟩
  have hlong : (0, 0, 1, 9223372036854775807) ∈ r.timed.map fun t => (t.index, t.layer, t.start, t.finish) := by
    rw [htimes]
    decide
  have hshort : (1, 1, -9223372036854775808, -9223372036854775807) ∈
      r.timed.map fun t => (t.index, t.layer, t.start, t.finish) := by
    rw [htimes]
    decide
  obtain ⟨t, ht, hteq⟩ := List.mem_map.mp hlong
  obtain ⟨u, hu, hueq⟩ := List.mem_map.mp hshort
  simp only [Prod.mk.injEq] at hteq hueq
  have := hle t ht u hu (by omega)
  omega

end CircuitMapping.Scheduler
