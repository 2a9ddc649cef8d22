/-
  CircuitMapping.Proofs.Timing.Clock — schedules on the multiples of the clock.

  Durations of the table are rounded up to the least multiple of the clock (`isLeast_roundUp`). Delays and waits are
  not; when they are multiples by themselves (`OnClock`), so are the times of all gates, and of layers, which take as
  long as one of their gates (`dvd_layersSpan`). So every gate starts and ends on a multiple, whether delays are in
  front of gates or behind them (`dvd_of_timeForward`). The axis of a reflection is the end of a gate, with or without
  its delay, so that it is on a multiple, too, and reflection leaves none (`dvd_of_timeBackward`).

  The least multiple may be none that a word holds, and rounding up comes out below zero (`rounding_up_overflows`).
  Where the work of the circuit is a word, times in words are on the clock (`times_are_on_clock`).
-/
import CircuitMapping.Proofs.Timing.Orders
import CircuitMapping.Proofs.Timing.Sequence
import Mathlib.Order.Bounds.Basic

namespace CircuitMapping

open Success

theorem dvd_foldl_max {α ι : Type} [LinearOrder α] [Dvd α] {f : ι → α} {xs : List ι} {a k : α} (ha : k ∣ a)
    (h : ∀ x ∈ xs, k ∣ f x) : k ∣ xs.foldl (fun m x => max m (f x)) a := by
  rcases foldl_max_eq_or_mem f xs a with he | ⟨x, hx, he⟩
  · rwa [he]
  · rw [he]
    exact h x hx

namespace Scheduler

open Dependencies

variable {s : Scheduler} {trailing : Bool} {c : Circuit} {ts : List TimedGate}

/-! ## Durations -/

theorem isLeast_roundUp {clock : Nat} (h : 0 < clock) (t : Nat) :
    IsLeast {k : Int | (clock : Int) ∣ k ∧ (t : Int) ≤ k} (roundUp clock t) := by
  obtain ⟨hle, hlt, hdvd⟩ := roundUp_spec h t
  refine ⟨⟨Int.natCast_dvd_natCast.mpr hdvd, by omega⟩, ?_⟩
  rintro k ⟨hk, htk⟩
  -- a multiple below it would be a whole clock below it, and less than `t`
  by_contra hgt
  have := Int.le_of_dvd (by omega) (Int.dvd_sub (Int.natCast_dvd_natCast.mpr hdvd) hk)
  omega

theorem durationOf_of_timed {g : Gate} (hw : g.op ≠ .wait) (hb : g.op ≠ .barrier) {k : Nat}
    (h : s.durationOf g = .ok k) : ∃ t, s.durations.lookup g = some t ∧ k = roundUp s.clock t := by
  unfold durationOf at h
  split at h
  · contradiction
  · contradiction
  · split at h
    · rename_i t ht
      cases h
      exact ⟨t, ht, rfl⟩
    · cases h

/-- Delays, and the waits of a circuit, are multiples of the clock. -/
structure OnClock {a : Arithmetic} (s : Scheduler a) (c : Circuit) : Prop where
  gateDelay : s.clock ∣ s.gateDelay
  readoutDelay : s.clock ∣ s.readoutDelay
  waits : ∀ g ∈ c.gates, g.op = .wait → s.clock ∣ waitTime g

theorem OnClock.reversed (h : s.OnClock c) : s.OnClock c.reversed where
  gateDelay := h.gateDelay
  readoutDelay := h.readoutDelay
  waits g hg := by
    rw [Circuit.gates_reversed, List.mem_reverse] at hg
    exact h.waits g hg

theorem OnClock.dvd_delayOf (h : s.OnClock c) (g : Gate) : s.clock ∣ s.delayOf g := by
  unfold delayOf
  split
  · exact Nat.dvd_zero _
  · exact Nat.dvd_zero _
  · exact h.readoutDelay
  · exact h.gateDelay

theorem OnClock.dvd_lasts (h : s.OnClock c) {g : Gate} (hg : g ∈ c.gates) (hd : s.durationOf g = .ok (s.lasts g)) :
    s.clock ∣ s.lasts g := by
  by_cases hw : g.op = .wait
  · have : s.durationOf g = .ok (waitTime g) := by simp [durationOf, hw]
    rw [lasts_eq this]
    exact h.waits g hg hw
  by_cases hb : g.op = .barrier
  · have : s.durationOf g = .ok 0 := by simp [durationOf, hb]
    rw [lasts_eq this]
    exact Nat.dvd_zero _
  obtain ⟨t, -, ht⟩ := durationOf_of_timed hw hb hd
  rw [ht]
  exact (roundUp_spec s.clock_pos t).2.2

/-! ## Layers -/

theorem dvd_layersSpan {k : Nat} {ls : List (List Node)} (h : ∀ ns ∈ ls, ∀ n ∈ ns, k ∣ s.span n.gate) :
    k ∣ s.layersSpan ls := by
  induction ls with
  | nil => exact Nat.dvd_zero k
  | cons ns ls ih =>
    obtain ⟨hns, hls⟩ := List.forall_mem_cons.mp h
    exact Nat.dvd_add (dvd_foldl_max (Nat.dvd_zero k) hns) (ih hls)

theorem OnClock.dvd_below (h : s.OnClock c) (ht : s.TimesAll c) (l : Nat) : s.clock ∣ s.below c l := by
  refine dvd_layersSpan fun ns hns n hn => ?_
  have hg : n.gate ∈ c.gates := gate_mem_of_mem_nodes (mem_nodes_of_mem_layers (List.mem_of_mem_take hns) hn)
  exact Nat.dvd_add (h.dvd_delayOf n.gate) (h.dvd_lasts hg (ht _ hg))

/-! ## Starts and ends -/

theorem dvd_of_timeForward (h : s.OnClock c) (ht : s.TimesAll c) (hts : s.timeForward trailing c = .ok ts)
    {t : TimedGate} (hmem : t ∈ ts) : (s.clock : Int) ∣ t.start ∧ (s.clock : Int) ∣ t.finish := by
  have hg : t.gate ∈ c.gates := List.mem_of_getElem? (level_of_timeForward hts hmem).1
  have hlead : s.clock ∣ s.lead trailing t.gate := by
    unfold lead
    split
    · exact Nat.dvd_zero _
    · exact h.dvd_delayOf t.gate
  obtain ⟨hstart, hfinish⟩ := times_of_timeForward ht hts hmem
  have hdvd : (s.clock : Int) ∣ t.start := by
    rw [hstart]
    exact mod_cast Nat.dvd_add (h.dvd_below ht t.layer) hlead
  rw [hfinish]
  exact ⟨hdvd, Int.dvd_add hdvd (Int.natCast_dvd_natCast.mpr (h.dvd_lasts hg (ht _ hg)))⟩

theorem dvd_of_timeBackward (h : s.OnClock c) (ht : s.TimesAll c) (hts : s.timeBackward c = .ok ts)
    {t : TimedGate} (hmem : t ∈ ts) : (s.clock : Int) ∣ t.start ∧ (s.clock : Int) ∣ t.finish := by
  obtain ⟨forward, back, hf, hb, rfl⟩ := timeBackward_eq_ok hts
  have hend : (s.clock : Int) ∣ endOf (fun _ => 0) forward :=
    dvd_foldl_max (Int.dvd_zero _) fun u hu => by simpa using (dvd_of_timeForward h ht hf hu).2
  have hend' : (s.clock : Int) ∣ endOf s.delayOf back :=
    dvd_foldl_max (Int.dvd_zero _) fun u hu => Int.dvd_add (dvd_of_timeForward h.reversed ht.reversed hb hu).2
      (Int.natCast_dvd_natCast.mpr (h.dvd_delayOf u.gate))
  have haxis : (s.clock : Int) ∣ max (endOf (fun _ => 0) forward) (endOf s.delayOf back) := by
    rcases max_choice (endOf (fun _ => 0) forward) (endOf s.delayOf back) with he | he
    · rwa [he]
    · rwa [he]
  obtain ⟨u, hu, rfl⟩ := List.mem_map.mp hmem
  obtain ⟨hstart, hfinish⟩ := dvd_of_timeForward h.reversed ht.reversed hb hu
  exact ⟨Int.dvd_sub haxis hfinish, Int.dvd_sub haxis hstart⟩

/-- A gate on the clock: it starts and ends on a multiple, and one that is neither a wait nor a barrier takes the least
    multiple that its duration fits into. -/
structure IsOnClock {a : Arithmetic} (s : Scheduler a) (t : TimedGate) : Prop where
  start : (s.clock : Int) ∣ t.start
  finish : (s.clock : Int) ∣ t.finish
  least : t.gate.op ≠ .wait → t.gate.op ≠ .barrier → ∃ d, s.durations.lookup t.gate = some d ∧
    IsLeast {k : Int | (s.clock : Int) ∣ k ∧ (d : Int) ≤ k} (t.finish - t.start)

theorem isOnClock_of_schedule (hclock : s.OnClock c) {r : Schedule} (h : s.schedule c = .ok r) :
    ∀ t ∈ r.timed, s.IsOnClock t := by
  intro t ht
  have htimes := timesAll_of_schedule h
  have hdvd : (s.clock : Int) ∣ t.start ∧ (s.clock : Int) ∣ t.finish := by
    obtain ⟨ts, rfl, ⟨-, hts⟩ | ⟨-, hts⟩⟩ := timed_of_schedule h
    · exact dvd_of_timeForward hclock htimes hts ((timed_perm _ ts).mem_iff.mp ht)
    · exact dvd_of_timeBackward hclock htimes hts ((timed_perm _ ts).mem_iff.mp ht)
  refine ⟨hdvd.1, hdvd.2, fun hw hb => ?_⟩
  obtain ⟨k, hk, hfinish⟩ := (isTimeline_of_schedule h).1.lasting t ht
  obtain ⟨d, hd, rfl⟩ := durationOf_of_timed hw hb hk
  have hlength : t.finish - t.start = roundUp s.clock d := by omega
  rw [hlength]
  exact ⟨d, hd, isLeast_roundUp s.clock_pos d⟩

theorem OnClock.holding {a : Arithmetic} {s : Scheduler a} (h : s.OnClock c) (b : Arithmetic) :
    (s.holding b).OnClock c :=
  ⟨h.gateDelay, h.readoutDelay, h.waits⟩

/-- Where both delays and all waits are multiples of the clock and the work of the circuit is a word, every gate starts
    and ends on a multiple, under either policy, and one that is neither a wait nor a barrier takes the least multiple
    that its duration fits into. -/
theorem times_are_on_clock {s : Scheduler .words} {c : Circuit} (hclock : s.OnClock c) (hfit : s.Fits c) {r : Schedule}
    (h : s.schedule c = .ok r) :
    ∀ t ∈ r.timed, (s.clock : Int) ∣ t.start ∧ (s.clock : Int) ∣ t.finish ∧
      (t.gate.op ≠ .wait → t.gate.op ≠ .barrier → ∃ d, s.durations.lookup t.gate = some d ∧
        IsLeast {k : Int | (s.clock : Int) ∣ k ∧ (d : Int) ≤ k} (t.finish - t.start)) := by
  rw [schedule_eq_exact hfit] at h
  intro t ht
  have honclock := isOnClock_of_schedule (hclock.holding .exact) h t ht
  exact ⟨honclock.start, honclock.finish, honclock.least⟩

/-- As late as possible, on a clock of four units, with delays on it. -/
def onFours : Scheduler .words := { lateInWords with gateDelay := 4, readoutDelay := 8 }

/-- A wait of eight units between two gates, and a measurement beside them. -/
def restingBetween : Circuit where
  width := 11
  entries := Circuit.number [⟨.h, [10], [], by decide⟩, ⟨.wait, [10], [⟨.ofNat 4620693217682128896⟩], by decide⟩,
    ⟨.cnot, [10, 2], [], by decide⟩, ⟨.measure, [8], [], by decide⟩]
  width_pos := by decide
  in_range := by decide

/-- The durations of 35 and of 150 units are not on the clock, and every start and end is. -/
theorem times_are_on_clock_restingBetween : onFours.OnClock restingBetween ∧ onFours.Fits restingBetween ∧
    ∃ r, onFours.schedule restingBetween = .ok r ∧
      (r.timed.map fun t => (t.index, t.start, t.finish)) =
        [(0, 120, 156), (1, 156, 164), (3, 172, 1172), (2, 1020, 1172)] ∧
      ∀ t ∈ r.timed, (onFours.clock : Int) ∣ t.start ∧ (onFours.clock : Int) ∣ t.finish ∧
        (t.gate.op ≠ .wait → t.gate.op ≠ .barrier → ∃ d, onFours.durations.lookup t.gate = some d ∧
          IsLeast {k : Int | (onFours.clock : Int) ∣ k ∧ (d : Int) ≤ k} (t.finish - t.start)) := by
  have hclock : onFours.OnClock restingBetween := ⟨by decide, by decide, by decide +kernel⟩
  have hfit : onFours.Fits restingBetween := by decide +kernel
  obtain ⟨r, hr, htimes⟩ := exists_ok_of_map (x := onFours.schedule restingBetween)
    (f := fun r => r.timed.map fun t => (t.index, t.start, t.finish))
    (b := [(0, 120, 156), (1, 156, 164), (3, 172, 1172), (2, 1020, 1172)])
    (by decide +kernel)
  exact ⟨hclock, hfit, r, hr, htimes, times_are_on_clock hclock hfit hr⟩

/-- As soon as possible, on a clock of three units, with a duration of the last word. -/
def onThrees : Scheduler .words where
  durations := ⟨[("H", 9223372036854775807)], []⟩
  policy := .asSoonAsPossible
  gateDelay := 0
  readoutDelay := 0
  clock := 3
  clock_pos := Nat.succ_pos 2

/-- One gate. -/
def alone : Circuit where
  width := 15
  entries := Circuit.number [⟨.h, [9], [], by decide⟩]
  width_pos := by decide
  in_range := by decide

/-- The least multiple of three from the last word on is two units after it, which comes out as the second word. The
    gate ends before it starts, on no multiple of three. -/
theorem rounding_up_overflows : onThrees.OnClock alone ∧ ∃ r, onThrees.schedule alone = .ok r ∧
    (r.timed.map fun t => (t.index, t.start, t.finish)) = [(0, 0, -9223372036854775807)] ∧
    ¬ ∀ t ∈ r.timed, (onThrees.clock : Int) ∣ t.start ∧ (onThrees.clock : Int) ∣ t.finish ∧
      (t.gate.op ≠ .wait → t.gate.op ≠ .barrier → ∃ d, onThrees.durations.lookup t.gate = some d ∧
        IsLeast {k : Int | (onThrees.clock : Int) ∣ k ∧ (d : Int) ≤ k} (t.finish - t.start)) := by
  have hclock : onThrees.OnClock alone := ⟨by decide, by decide, by decide⟩
  obtain ⟨r, hr, htimes⟩ := exists_ok_of_map (x := onThrees.schedule alone)
    (f := fun r => r.timed.map fun t => (t.index, t.start, t.finish)) (b := [(0, 0, -9223372036854775807)])
    (by decide +kernel)
  refine ⟨hclock, r, hr, htimes, fun hall => ?_⟩
  have hmem : (0, 0, -9223372036854775807) ∈ r.timed.map fun t => (t.index, t.start, t.finish) := by
    rw [htimes]
    decide
  obtain ⟨t, ht, hteq⟩ := List.mem_map.mp hmem
  simp only [Prod.mk.injEq] at hteq
  have hdvd := (hall t ht).2.1
  rw [hteq.2.2] at hdvd
  exact absurd hdvd (by decide)

end Scheduler

end CircuitMapping
