/-
  CircuitMapping.Proofs.Timing.Timeline — a schedule is a timeline of its circuit.

  A timeline runs every gate once, for as long as it takes (`takes_of_durationOf`), behind its delay, and gates that
  meet one after the other (`IsTimeline`). Timing as soon as possible gives one (`isTimeline_of_timeForward`), and so
  does reflecting the gates of the reversed circuit, timed with their delays behind them (`isTimeline_reflect`).

  In a timeline sorted by start times gates that meet come in program order, also where they take no time
  (`IsTimeline.ordered`). So a schedule has on every qubit the gates of the circuit, in order and apart
  (`schedule_is_timeline`).
-/
import CircuitMapping.Proofs.Circuit.Register
import CircuitMapping.Proofs.Timing.Layers

namespace CircuitMapping.Scheduler

open Success

variable {s : Scheduler}

/-! ## What a gate costs -/

/-- A gate takes the time `k`: a wait its parameter to the nearest unit, halves upwards, a barrier nothing, and any
    other gate its duration rounded up to the clock. -/
def Takes (s : Scheduler) (g : Gate) (k : Nat) : Prop :=
  match g.op with
  | .wait => ∃ d, g.params = [d] ∧ d.isAmount = true ∧
      2 * k * d.magnitude.den ≤ 2 * d.magnitude.scaled 1 + d.magnitude.den ∧
      2 * d.magnitude.scaled 1 + d.magnitude.den < 2 * (k + 1) * d.magnitude.den
  | .barrier => k = 0
  | _ => ∃ t, s.durations.lookup g = some t ∧ t ≤ k ∧ k < t + s.clock ∧ s.clock ∣ k

theorem roundUp_spec {clock : Nat} (h : 0 < clock) (t : Nat) :
    t ≤ roundUp clock t ∧ roundUp clock t < t + clock ∧ clock ∣ roundUp clock t := by
  have hlt := Nat.mod_lt t h
  unfold roundUp
  split
  · rename_i hz
    exact ⟨le_rfl, by omega, Nat.dvd_of_mod_eq_zero hz⟩
  · refine ⟨by omega, by omega, ?_⟩
    have hup : t + clock - t % clock = clock * (t / clock + 1) := by
      have := Nat.div_add_mod t clock
      rw [Nat.mul_add, Nat.mul_one]
      omega
    exact ⟨_, hup⟩

/-- The one parameter of a wait is a finite time. -/
theorem params_of_wait {g : Gate} (h : g.op = .wait) : ∃ d, g.params = [d] ∧ d.isAmount = true := by
  obtain ⟨-, -, hp, hw⟩ := Operation.fault?_eq_none.mp g.valid
  have hlen : g.params.length = 1 := by
    unfold Operation.paramFault? at hp
    split at hp
    · rename_i hl
      rw [hl, h]
      rfl
    · cases hp
  obtain ⟨d, hd⟩ := List.length_eq_one_iff.mp hlen
  refine ⟨d, hd, ?_⟩
  unfold Operation.waitFault? at hw
  rw [if_pos h, hd] at hw
  simp [Operation.isWaitTime] at hw
  exact hw.1

theorem takes_of_durationOf {g : Gate} {k : Nat} (h : s.durationOf g = .ok k) : s.Takes g k := by
  unfold durationOf at h
  split at h
  · rename_i hop
    cases h
    obtain ⟨d, hd, ha⟩ := params_of_wait hop
    simp only [Takes, hop, waitTime, hd]
    exact ⟨d, rfl, ha, d.magnitude.nearest_spec⟩
  · rename_i hop
    cases h
    simp only [Takes, hop]
  · rename_i hwait hbarrier
    split at h
    · rename_i t ht
      cases h
      unfold Takes
      split
      · contradiction
      · contradiction
      · exact ⟨t, ht, roundUp_spec s.clock_pos t⟩
    · cases h

/-! ## Timelines -/

/-- Timed gates that run a circuit: each of its gates once, as long as it takes, behind its delay, and gates that meet
    in program order with the delay between them. -/
structure IsTimeline (s : Scheduler) (c : Circuit) (ts : List TimedGate) : Prop where
  perm : (ts.map fun t => (t.gate, t.index)).Perm c.gates.zipIdx
  lasting : ∀ t ∈ ts, s.Lasting t
  delayed : ∀ t ∈ ts, (s.delayOf t.gate : Int) ≤ t.start
  apart : ∀ t ∈ ts, ∀ u ∈ ts, t.index < u.index → t.gate.Meets u.gate → t.finish + s.delayOf u.gate ≤ u.start

theorem isTimeline_of_timeForward {c : Circuit} {ts : List TimedGate} (h : s.timeForward false c = .ok ts) :
    s.IsTimeline c ts where
  perm := perm_of_timeForward h
  lasting := (laid_of_timeForward h).lasting
  delayed := (laid_of_timeForward h).lead
  apart t ht u hu hlt hm := by
    have := (laid_of_timeForward h).apart t ht u hu (layer_lt_of_timeForward h ht hu hlt hm)
    simpa [release, lead] using this

theorem IsTimeline.of_perm {c : Circuit} {ts us : List TimedGate} (h : s.IsTimeline c ts) (hp : us.Perm ts) :
    s.IsTimeline c us where
  perm := (hp.map _).trans h.perm
  lasting t ht := h.lasting t (hp.mem_iff.mp ht)
  delayed t ht := h.delayed t (hp.mem_iff.mp ht)
  apart t ht u hu := h.apart t (hp.mem_iff.mp ht) u (hp.mem_iff.mp hu)

theorem IsTimeline.start_le_finish {c : Circuit} {ts : List TimedGate} (h : s.IsTimeline c ts) {t : TimedGate}
    (ht : t ∈ ts) : t.start ≤ t.finish := by
  obtain ⟨k, -, hk⟩ := h.lasting t ht
  omega

/-! ## Reflection -/

/-- Positions counted from the other end. -/
theorem zipIdx_reverse {α : Type} (xs : List α) :
    (xs.reverse.zipIdx.map fun p => (p.1, xs.length - 1 - p.2)) = xs.zipIdx.reverse := by
  refine List.ext_getElem (by simp) ?_
  intro i h h'
  simp

theorem le_endOf (delay : Gate → Nat) {ts : List TimedGate} {t : TimedGate} (ht : t ∈ ts) :
    t.finish + delay t.gate ≤ endOf delay ts :=
  le_foldl_max_of_mem (fun t : TimedGate => t.finish + delay t.gate) 0 ht

/-- The gates of the reversed circuit are those of the circuit, with positions counted from the other end. -/
theorem perm_of_reversed {a : Arithmetic} {s : Scheduler a} {c : Circuit} {ts : List TimedGate}
    (h : s.timeForward true c.reversed = .ok ts) :
    (ts.map fun t => (t.gate, c.size - 1 - t.index)).Perm c.gates.zipIdx := by
  have hp := (perm_of_timeForward h).map fun p => (p.1, c.gates.length - 1 - p.2)
  rw [Circuit.gates_reversed, zipIdx_reverse, List.map_map, ← Circuit.size_eq_length] at hp
  exact hp.trans (List.reverse_perm _)

/-- The gates of the reversed circuit, timed with their delays behind them, make a timeline of the circuit when they
    are reflected at an axis that comes after all of them. -/
theorem isTimeline_reflect {c : Circuit} {ts : List TimedGate} (h : s.timeForward true c.reversed = .ok ts)
    {axis : Int} (hend : ∀ t ∈ ts, t.finish + s.delayOf t.gate ≤ axis) (layers : Nat) :
    s.IsTimeline c (ts.map (reflect axis c.size layers)) where
  perm := by
    rw [List.map_map]
    exact perm_of_reversed h
  lasting t ht := by
    obtain ⟨u, hu, rfl⟩ := List.mem_map.mp ht
    obtain ⟨k, hk, hf⟩ := (laid_of_timeForward h).lasting u hu
    refine ⟨k, hk, ?_⟩
    simp only [reflect]
    omega
  delayed t ht := by
    obtain ⟨u, hu, rfl⟩ := List.mem_map.mp ht
    have := hend u hu
    simp only [reflect]
    omega
  apart t' ht' u' hu' hlt hm := by
    obtain ⟨t, ht, rfl⟩ := List.mem_map.mp ht'
    obtain ⟨u, hu, rfl⟩ := List.mem_map.mp hu'
    simp only [reflect] at hlt hm ⊢
    -- in the reversed circuit the later gate comes first, and its delay is behind it
    have hback : u.index < t.index := by omega
    have := (laid_of_timeForward h).apart u hu t ht (layer_lt_of_timeForward h hu ht hback hm.symm)
    simp only [release, lead, if_true] at this
    omega

/-- As late as possible, the gates of the reversed circuit are reflected, at the later of the two ends. -/
theorem reflected_of_timeBackward {a : Arithmetic} {s : Scheduler a} {c : Circuit} {us : List TimedGate}
    (h : s.timeBackward c = .ok us) : ∃ forward ts,
      s.timeForward false c = .ok forward ∧ s.timeForward true c.reversed = .ok ts ∧
        let axis := max (endOf (fun _ => 0) forward a) (endOf s.delayOf ts a)
        us = ts.map fun t => (reflect axis c.size c.depth t).held a := by
  obtain ⟨forward, hf, h⟩ := bind_eq_ok.mp h
  obtain ⟨ts, hts, h⟩ := bind_eq_ok.mp h
  cases pure_eq_ok.mp h
  rw [foldl_layer hts, c.depth_reversed]
  exact ⟨forward, ts, hf, hts, rfl⟩

theorem timeBackward_eq_ok {c : Circuit} {us : List TimedGate} (h : s.timeBackward c = .ok us) : ∃ forward ts,
    s.timeForward false c = .ok forward ∧ s.timeForward true c.reversed = .ok ts ∧
      us = ts.map (reflect (max (endOf (fun _ => 0) forward) (endOf s.delayOf ts)) c.size c.depth) :=
  reflected_of_timeBackward h

theorem isTimeline_of_timeBackward {c : Circuit} {ts : List TimedGate} (h : s.timeBackward c = .ok ts) :
    s.IsTimeline c ts := by
  obtain ⟨forward, backward, -, hb, rfl⟩ := timeBackward_eq_ok h
  refine isTimeline_reflect hb ?_ _
  intro t ht
  exact (le_endOf s.delayOf ht).trans (le_max_right _ _)

theorem timed_perm (width : Nat) (ts : List TimedGate) : (Schedule.ofTimed width ts).timed.Perm ts :=
  Schedule.sort_perm ts

/-- A schedule sorts what its policy has timed. -/
theorem timed_of_schedule {a : Arithmetic} {s : Scheduler a} {c : Circuit} {r : Schedule} (h : s.schedule c = .ok r) :
    ∃ ts, r = Schedule.ofTimed c.width ts ∧
      (s.policy = .asSoonAsPossible ∧ s.timeForward false c = .ok ts ∨
        s.policy = .asLateAsPossible ∧ s.timeBackward c = .ok ts) := by
  unfold schedule at h
  cases hp : s.policy with
  | asSoonAsPossible =>
    rw [hp] at h
    obtain ⟨ts, hts, h⟩ := bind_eq_ok.mp h
    cases pure_eq_ok.mp h
    exact ⟨ts, rfl, .inl ⟨rfl, hts⟩⟩
  | asLateAsPossible =>
    rw [hp] at h
    obtain ⟨ts, hts, h⟩ := bind_eq_ok.mp h
    cases pure_eq_ok.mp h
    exact ⟨ts, rfl, .inr ⟨rfl, hts⟩⟩

/-- A schedule has every gate of its circuit once, at its position. -/
theorem perm_of_schedule {a : Arithmetic} {s : Scheduler a} {c : Circuit} {r : Schedule} (h : s.schedule c = .ok r) :
    (r.timed.map fun t => (t.gate, t.index)).Perm c.gates.zipIdx := by
  obtain ⟨ts, rfl, ⟨-, hts⟩ | ⟨-, hts⟩⟩ := timed_of_schedule h
  · exact ((timed_perm _ ts).map _).trans (perm_of_timeForward hts)
  · obtain ⟨forward, back, -, hb, rfl⟩ := reflected_of_timeBackward hts
    refine ((timed_perm _ _).map _).trans ?_
    rw [List.map_map]
    exact perm_of_reversed hb

theorem timesAll_of_schedule {a : Arithmetic} {s : Scheduler a} {c : Circuit} {r : Schedule}
    (h : s.schedule c = .ok r) : s.TimesAll c := by
  obtain ⟨ts, -, ⟨-, hts⟩ | ⟨-, hts⟩⟩ := timed_of_schedule h
  · exact timesAll_of_timeForward hts
  · obtain ⟨forward, back, hf, -⟩ := reflected_of_timeBackward hts
    exact timesAll_of_timeForward hf

theorem TimesAll.reversed {a : Arithmetic} {s : Scheduler a} {c : Circuit} (h : s.TimesAll c) :
    s.TimesAll c.reversed := by
  intro g hg
  rw [Circuit.gates_reversed, List.mem_reverse] at hg
  exact h g hg

theorem exists_schedule {a : Arithmetic} {s : Scheduler a} {c : Circuit} (h : s.TimesAll c) :
    ∃ r, s.schedule c = .ok r := by
  obtain ⟨forward, hf⟩ := exists_timeForward h false
  obtain ⟨back, hb⟩ := exists_timeForward h.reversed true
  unfold schedule
  cases s.policy with
  | asSoonAsPossible => exact ⟨_, bind_eq_ok.mpr ⟨_, hf, rfl⟩⟩
  | asLateAsPossible => exact ⟨_, bind_eq_ok.mpr ⟨_, bind_eq_ok.mpr ⟨_, hf, bind_eq_ok.mpr ⟨_, hb, rfl⟩⟩, rfl⟩⟩

theorem isTimeline_of_schedule {c : Circuit} {r : Schedule} (h : s.schedule c = .ok r) :
    s.IsTimeline c r.timed ∧ Sorting.Sorted TimedGate.precedes r.timed := by
  obtain ⟨ts, rfl, ⟨-, hts⟩ | ⟨-, hts⟩⟩ := timed_of_schedule h
  · exact ⟨(isTimeline_of_timeForward hts).of_perm (timed_perm _ ts), Schedule.sort_sorted ts⟩
  · exact ⟨(isTimeline_of_timeBackward hts).of_perm (timed_perm _ ts), Schedule.sort_sorted ts⟩

/-! ## Along a qubit -/

theorem pairwise_zipIdx {α : Type} (xs : List α) : xs.zipIdx.Pairwise fun a b => a.2 < b.2 := by
  refine List.pairwise_map.mp ?_
  rw [List.zipIdx_map_snd]
  exact List.pairwise_lt_range'

theorem nodup_index {c : Circuit} {ts : List TimedGate} (h : (ts.map fun t => (t.gate, t.index)).Perm c.gates.zipIdx) :
    (ts.map (·.index)).Nodup := by
  have hp := h.map Prod.snd
  rw [List.map_map, List.zipIdx_map_snd] at hp
  exact hp.nodup_iff.mpr List.nodup_range'

/-- In the order of start times, gates that meet are in program order: where they start together the earlier one
    takes no time, and then its position puts it first. -/
theorem IsTimeline.ordered {c : Circuit} {ts : List TimedGate} (h : s.IsTimeline c ts)
    (hs : Sorting.Sorted TimedGate.precedes ts) :
    ts.Pairwise fun t u => t.gate.Meets u.gate → t.index < u.index := by
  refine (hs.and (List.pairwise_map.mp (nodup_index h.perm))).imp_of_mem ?_
  intro t u ht hu ⟨hle, hne⟩ hm
  by_contra hnot
  have hlt : u.index < t.index := by omega
  have hapart := h.apart u hu t ht hlt hm.symm
  have hlen := h.start_le_finish hu
  simp only [TimedGate.precedes, decide_eq_false_iff_not] at hle
  omega

/-- Gates on one qubit all meet. -/
theorem IsTimeline.pairwise_on {c : Circuit} {r : Schedule} (h : s.IsTimeline c r.timed)
    (hs : Sorting.Sorted TimedGate.precedes r.timed) (q : Nat) : (r.on q).Pairwise fun t u => t.index < u.index := by
  refine ((h.ordered hs).filter _).imp_of_mem ?_
  intro t u ht hu himp
  have hqt : q ∈ t.gate.qubits := by simpa using (List.mem_filter.mp ht).2
  have hqu : q ∈ u.gate.qubits := by simpa using (List.mem_filter.mp hu).2
  exact himp ⟨q, hqt, hqu⟩

theorem IsTimeline.on_eq {c : Circuit} {r : Schedule} (h : s.IsTimeline c r.timed)
    (hs : Sorting.Sorted TimedGate.precedes r.timed) (q : Nat) :
    ((r.on q).map fun t => (t.gate, t.index)) = c.gates.zipIdx.filter fun p => p.1.qubits.contains q := by
  have hon : ((r.on q).map fun t => (t.gate, t.index)).Pairwise fun a b => a.2 < b.2 :=
    List.pairwise_map.mpr (h.pairwise_on hs q)
  have hgates : (c.gates.zipIdx.filter fun p => p.1.qubits.contains q).Pairwise fun a b => a.2 < b.2 :=
    (pairwise_zipIdx c.gates).filter _
  have hp := h.perm.filter fun p => p.1.qubits.contains q
  rw [List.filter_map] at hp
  refine List.Perm.eq_of_pairwise ?_ hon hgates hp
  intro a b _ _ hab hba
  omega

theorem IsTimeline.apart_on {c : Circuit} {r : Schedule} (h : s.IsTimeline c r.timed)
    (hs : Sorting.Sorted TimedGate.precedes r.timed) (q : Nat) :
    (r.on q).Pairwise fun t u : TimedGate => t.finish + s.delayOf u.gate ≤ u.start := by
  refine (h.pairwise_on hs q).imp_of_mem ?_
  intro t u ht hu hlt
  obtain ⟨htm, hqt⟩ := List.mem_filter.mp ht
  obtain ⟨hum, hqu⟩ := List.mem_filter.mp hu
  exact h.apart t htm u hum hlt ⟨q, by simpa using hqt, by simpa using hqu⟩

/-- A schedule runs every gate of its circuit once and for as long as it takes, none before its delay has passed, and
    gates that share a qubit one after the other; on every qubit it lists the gates there in program order. -/
theorem schedule_is_timeline {c : Circuit} {r : Schedule} (h : s.schedule c = .ok r) :
    (r.timed.map fun t => (t.gate, t.index)).Perm c.gates.zipIdx ∧
    (∀ t ∈ r.timed, ∃ k, s.Takes t.gate k ∧ t.finish - t.start = k) ∧
    (∀ t ∈ r.timed, s.delayOf t.gate ≤ t.start ∧ 0 ≤ t.start) ∧
    (∀ t ∈ r.timed, ∀ u ∈ r.timed, t.index < u.index → (∃ q ∈ t.gate.qubits, q ∈ u.gate.qubits) →
      t.finish + s.delayOf u.gate ≤ u.start) ∧
    ∀ q, ((r.on q).map fun t => (t.gate, t.index)) = (c.gates.zipIdx.filter fun p => p.1.qubits.contains q) ∧
      (r.on q).Pairwise fun t u : TimedGate => t.finish ≤ u.start := by
  obtain ⟨ht, hs⟩ := isTimeline_of_schedule h
  refine ⟨ht.perm, ?_, ?_, ht.apart, ?_⟩
  · intro t hm
    obtain ⟨k, hk, hf⟩ := ht.lasting t hm
    exact ⟨k, takes_of_durationOf hk, by omega⟩
  · intro t hm
    have := ht.delayed t hm
    exact ⟨this, by omega⟩
  · intro q
    refine ⟨ht.on_eq hs q, (ht.apart_on hs q).imp ?_⟩
    intro t u htu
    omega

/-- As late as possible, on a clock of four units, with delays. -/
def lateOnClock : Scheduler where
  durations := ⟨[("CNOT", 150), ("H", 35), ("Measure", 1000)], [(("H", [1]), 20)]⟩
  policy := .asLateAsPossible
  gateDelay := 2
  readoutDelay := 5
  clock := 4
  clock_pos := by decide

/-- Two qubits with waits and barriers between gates; the waits last for 0 and for 2.5 units. -/
def pausing : Circuit where
  width := 2
  entries := Circuit.number [⟨.h, [0], [], by decide⟩, ⟨.wait, [0], [⟨.ofNat 0⟩], by decide⟩,
    ⟨.barrier, [0, 1], [], by decide⟩, ⟨.barrier, [1], [], by decide⟩, ⟨.h, [1], [], by decide⟩,
    ⟨.cnot, [1, 0], [], by decide⟩, ⟨.wait, [1], [⟨.ofNat 4612811918334230528⟩], by decide⟩,
    ⟨.measure, [0], [], by decide⟩]
  width_pos := by decide
  in_range := by decide

/-- Gates that take no time start together with others on their qubit. -/
theorem schedule_is_timeline_pausing : ∃ r, lateOnClock.schedule pausing = .ok r ∧
    (r.timed.map fun t => (t.index, t.start, t.finish)) =
      [(0, 2, 38), (1, 38, 38), (2, 38, 38), (3, 38, 38), (4, 40, 60), (5, 62, 214), (7, 219, 1219), (6, 1216, 1219)] ∧
    (r.timed.map fun t => (t.gate, t.index)).Perm pausing.gates.zipIdx ∧
    (∀ t ∈ r.timed, ∃ k, lateOnClock.Takes t.gate k ∧ t.finish - t.start = k) ∧
    (∀ t ∈ r.timed, lateOnClock.delayOf t.gate ≤ t.start ∧ 0 ≤ t.start) ∧
    (∀ t ∈ r.timed, ∀ u ∈ r.timed, t.index < u.index → (∃ q ∈ t.gate.qubits, q ∈ u.gate.qubits) →
      t.finish + lateOnClock.delayOf u.gate ≤ u.start) ∧
    ∀ q, ((r.on q).map fun t => (t.gate, t.index)) = (pausing.gates.zipIdx.filter fun p => p.1.qubits.contains q) ∧
      (r.on q).Pairwise fun t u : TimedGate => t.finish ≤ u.start := by
  obtain ⟨r, hr, hs⟩ := exists_ok_of_map (x := lateOnClock.schedule pausing)
    (f := fun r => r.timed.map fun t => (t.index, t.start, t.finish))
    (b := [(0, 2, 38), (1, 38, 38), (2, 38, 38), (3, 38, 38), (4, 40, 60), (5, 62, 214), (7, 219, 1219),
      (6, 1216, 1219)])
    (by decide +kernel)
  exact ⟨r, hr, hs, schedule_is_timeline hr⟩

end CircuitMapping.Scheduler
