/-
  CircuitMapping.Proofs.Timing.Orders — schedules of circuits that differ in the order of gates that do not meet.

  A gate is timed by its level and the end of the layers below it (`timeForward_perm`). Circuits with the same gates on
  the same levels have layers that end at the same times (`baseOf_eq`), so every gate gets the same times in both
  (`timeForward_moved`), also as late as possible, where the reversed circuits are timed (`timeBackward_moved`). So
  exchanging neighbours that share no qubit changes nothing in a schedule but positions (`exchanges_keep_schedule`),
  however times are added.
-/
import CircuitMapping.Proofs.Circuit.Orders
import CircuitMapping.Proofs.Timing.Words

namespace CircuitMapping

/-- The gate at its position in another order. -/
def TimedGate.moved (π : Equiv.Perm Nat) (t : TimedGate) : TimedGate := { t with index := π t.index }

namespace Scheduler

open Dependencies Success

variable {a : Arithmetic} {s : Scheduler a} {trailing : Bool} {c c' : Circuit} {π : Equiv.Perm Nat}

/-! ## Times by levels -/

/-- A gate on its level, where the layers of lower levels end at the given times. -/
def timing (s : Scheduler a) (trailing : Bool) (base : Nat → Int) (p : (Gate × Nat) × Nat) : TimedGate :=
  ⟨p.1.1, p.1.2, p.2, s.startAt trailing (base p.2) p.1.1, s.finishAt trailing (base p.2) p.1.1⟩

/-- The end of the layers of lower levels. -/
def baseOf (s : Scheduler a) (trailing : Bool) (c : Circuit) (l : Nat) : Int :=
  s.layersEnd trailing 0 (((ofCircuit c).layers.take l).map fun ns => ns.map (·.gate))

theorem timeForward_perm (h : s.TimesAll c) {ts : List TimedGate} (hts : s.timeForward trailing c = .ok ts) :
    ts.Perm ((ranked c).map (s.timing trailing (s.baseOf trailing c))) := by
  refine .trans (.of_eq ?_) ((ranked_of_timeForward hts).map _)
  rw [List.map_map]
  refine (List.map_id _).symm.trans (List.map_congr_left ?_)
  intro t ht
  rw [timeForward_eq h] at hts
  cases hts
  obtain ⟨i, ns, -, n, -, rfl⟩ := timedAt_of_mem_laidOut ht
  simp [timedAt, timing, baseOf]

/-- The time of the layers of lower levels. -/
def below (s : Scheduler) (c : Circuit) (l : Nat) : Nat := s.layersSpan ((ofCircuit c).layers.take l)

/-- As integers, a gate starts behind the layers of lower levels, and its delay where that is in front. -/
theorem times_of_timeForward {s : Scheduler} (h : s.TimesAll c) {ts : List TimedGate}
    (hts : s.timeForward trailing c = .ok ts) {t : TimedGate} (ht : t ∈ ts) :
    t.start = s.below c t.layer + s.lead trailing t.gate ∧ t.finish = t.start + s.lasts t.gate := by
  obtain ⟨p, -, rfl⟩ := List.mem_map.mp ((timeForward_perm h hts).mem_iff.mp ht)
  have hbase : s.baseOf trailing c p.2 = s.below c p.2 := (layersEnd_eq ..).trans (Int.zero_add _)
  simp only [timing, startAt_eq, finishAt_eq, hbase]
  exact ⟨trivial, trivial⟩

/-- The end of a layer is a matter of which gates are in it. -/
theorem layerEnd_of_perm {gs gs' : List Gate} (h : gs'.Perm gs) (s : Scheduler a) (trailing : Bool) (base : Int) :
    s.layerEnd trailing base gs' = s.layerEnd trailing base gs :=
  foldl_max_eq_of_mem_iff (fun _ => h.mem_iff) ..

theorem baseOf_eq_foldl (s : Scheduler a) (trailing : Bool) (c : Circuit) (l : Nat) : s.baseOf trailing c l =
    ((List.range (ofCircuit c).height).take l).foldl (fun base l => s.layerEnd trailing base (gatesOn c l)) 0 := by
  rw [baseOf, layersEnd, List.map_take, map_gate_layers, ← List.map_take, List.foldl_map]

theorem baseOf_eq (h : Reorders c.gates c'.gates π) (s : Scheduler a) (trailing : Bool) :
    s.baseOf trailing c' = s.baseOf trailing c := by
  funext l
  rw [baseOf_eq_foldl, baseOf_eq_foldl, h.height_eq]
  exact List.foldl_ext _ _ _ fun base l _ => layerEnd_of_perm (h.gatesOn_perm l) s trailing base

/-! ## One after the other order -/

/-- What does not depend on positions has the same maximum. -/
theorem foldl_max_of_moved {α : Type} [LinearOrder α] {f : TimedGate → α} (hf : ∀ t, f (t.moved π) = f t)
    {ts ts' : List TimedGate} (h : ts'.Perm (ts.map (TimedGate.moved π))) (a : α) :
    ts'.foldl (fun m t => max m (f t)) a = ts.foldl (fun m t => max m (f t)) a := by
  rw [foldl_max_eq_of_mem_iff (fun _ => h.mem_iff), List.foldl_map]
  simp only [hf]

theorem TimesAll.moved (ht : s.TimesAll c) (h : Reorders c.gates c'.gates π) : s.TimesAll c' :=
  fun g hg => ht g (h.symm.mem_of_mem hg)

theorem timeForward_moved (h : Reorders c.gates c'.gates π) (ht : s.TimesAll c) {ts ts' : List TimedGate}
    (hts : s.timeForward trailing c = .ok ts) (hts' : s.timeForward trailing c' = .ok ts') :
    ts'.Perm (ts.map (TimedGate.moved π)) := by
  have hp := timeForward_perm ht hts
  have hp' := timeForward_perm (ht.moved h) hts'
  have hmoved := h.ranked_perm.map (s.timing trailing (s.baseOf trailing c))
  have hsame : ((ranked c).map fun p => ((p.1.1, π p.1.2), p.2)).map (s.timing trailing (s.baseOf trailing c))
      = ((ranked c).map (s.timing trailing (s.baseOf trailing c))).map (TimedGate.moved π) := by
    rw [List.map_map, List.map_map]
    rfl
  rw [baseOf_eq h] at hp'
  rw [hsame] at hmoved
  exact hp'.trans (hmoved.trans (hp.map _).symm)

/-- Reflection turns positions counted from the other end back. -/
theorem reflect_moved {axis : Int} {n layers : Nat} {t : TimedGate} (ht : t.index < n) (hπ : ∀ i < n, π i < n) :
    reflect axis n layers (t.moved (mirror n * π * mirror n)) = (reflect axis n layers t).moved π := by
  have hindex : n - 1 - mirror n (π (mirror n t.index)) = π (n - 1 - t.index) := by
    have hlt := hπ _ (mirror_lt ht)
    rw [mirror_of_lt hlt, mirror_of_lt ht]
    rw [mirror_of_lt ht] at hlt
    omega
  simp only [reflect, TimedGate.moved, Equiv.Perm.coe_mul, Function.comp_apply, hindex]

theorem index_lt_of_timeForward {ts : List TimedGate} (h : s.timeForward trailing c = .ok ts) {t : TimedGate}
    (ht : t ∈ ts) : t.index < c.size := by
  rw [Circuit.size_eq_length]
  exact (List.getElem?_eq_some_iff.mp (level_of_timeForward h ht).1).1

theorem timeBackward_moved (h : Reorders c.gates c'.gates π) (ht : s.TimesAll c) {ts ts' : List TimedGate}
    (hts : s.timeBackward c = .ok ts) (hts' : s.timeBackward c' = .ok ts') :
    ts'.Perm (ts.map (TimedGate.moved π)) := by
  obtain ⟨forward, backward, hf, hb, rfl⟩ := reflected_of_timeBackward hts
  obtain ⟨forward', backward', hf', hb', rfl⟩ := reflected_of_timeBackward hts'
  have hback := h.reverse
  rw [← Circuit.gates_reversed, ← Circuit.gates_reversed] at hback
  have hforward := timeForward_moved h ht hf hf'
  have hbackward := timeForward_moved hback ht.reversed hb hb'
  have hsize : c'.size = c.size := by
    rw [Circuit.size_eq_length, Circuit.size_eq_length, h.length]
  -- the axis is the same
  have hend : endOf (fun _ => 0) forward' a = endOf (fun _ => 0) forward a :=
    foldl_max_of_moved (fun _ => rfl) hforward 0
  have hend' : endOf s.delayOf backward' a = endOf s.delayOf backward a :=
    foldl_max_of_moved (fun _ => rfl) hbackward 0
  rw [hend, hend', h.depth_eq, hsize]
  refine (hbackward.map _).trans (.of_eq ?_)
  rw [List.map_map, List.map_map]
  refine List.map_congr_left fun t htm => ?_
  have hlt := index_lt_of_timeForward hb htm
  have hn : c.reversed.size = c.size := by simp [Circuit.size_eq_length, Circuit.gates_reversed]
  rw [hn] at hlt
  rw [Circuit.size_eq_length] at hlt ⊢
  exact congrArg (TimedGate.held a) (reflect_moved hlt fun i => h.apply_lt)

/-! ## Schedules -/

theorem sort_moved {ts ts' : List TimedGate} (h : ts'.Perm (ts.map (TimedGate.moved π))) :
    (Schedule.sort ts').Perm ((Schedule.sort ts).map (TimedGate.moved π)) :=
  (Schedule.sort_perm ts').trans (h.trans ((Schedule.sort_perm ts).map _).symm)

theorem schedule_moved (h : Reorders c.gates c'.gates π) {r r' : Schedule} (hr : s.schedule c = .ok r)
    (hr' : s.schedule c' = .ok r') : r'.timed.Perm (r.timed.map (TimedGate.moved π)) := by
  have ht := timesAll_of_schedule hr
  obtain ⟨ts, rfl, ⟨hp, hts⟩ | ⟨hp, hts⟩⟩ := timed_of_schedule hr <;>
    obtain ⟨ts', rfl, ⟨hp', hts'⟩ | ⟨hp', hts'⟩⟩ := timed_of_schedule hr'
  · exact sort_moved (timeForward_moved h ht hts hts')
  · cases hp.symm.trans hp'
  · cases hp.symm.trans hp'
  · exact sort_moved (timeBackward_moved h ht hts hts')

/-- Exchanging neighbours that share no qubit, any number of times, changes neither the depth of a circuit nor whether
    it can be scheduled. Every gate keeps its layer and its times, at its new position, and the makespan is the same. -/
theorem exchanges_keep_schedule {a : Arithmetic} {s : Scheduler a} {c c' : Circuit} {π : Equiv.Perm Nat}
    (h : Exchanges c.gates c'.gates π) :
    (∀ i, c'.gates[π i]? = c.gates[i]?) ∧ c'.depth = c.depth ∧
    ((∃ r, s.schedule c = .ok r) ↔ ∃ r', s.schedule c' = .ok r') ∧
    ∀ r r', s.schedule c = .ok r → s.schedule c' = .ok r' →
      r'.timed.Perm (r.timed.map fun t => { t with index := π t.index }) ∧ r'.makespan = r.makespan := by
  have hre := h.reorders
  refine ⟨hre.gates, hre.depth_eq, ?_, ?_⟩
  · constructor
    · intro ⟨r, hr⟩
      exact exists_schedule ((timesAll_of_schedule hr).moved hre)
    · intro ⟨r', hr'⟩
      exact exists_schedule ((timesAll_of_schedule hr').moved hre.symm)
  · intro r r' hr hr'
    have hp := schedule_moved hre hr hr'
    exact ⟨hp, foldl_max_of_moved (fun _ => rfl) hp 0⟩

/-- Two gates one after the other, and a measurement of another qubit behind them. -/
def measuredLast : Circuit where
  width := 7
  entries := Circuit.number [⟨.cnot, [5, 3], [], by decide⟩, ⟨.h, [5], [], by decide⟩, ⟨.measure, [6], [], by decide⟩]
  width_pos := by decide
  in_range := by decide

/-- The same with the measurement in front. -/
def measuredFirst : Circuit where
  width := 7
  entries := Circuit.number [⟨.measure, [6], [], by decide⟩, ⟨.cnot, [5, 3], [], by decide⟩, ⟨.h, [5], [], by decide⟩]
  width_pos := by decide
  in_range := by decide

/-- As late as possible, the measurement takes place in the last layer, wherever it is in the circuit. -/
theorem exchanges_keep_schedule_measured :
    ∃ π : Equiv.Perm Nat, Exchanges measuredLast.gates measuredFirst.gates π ∧ (π 0, π 1, π 2) = (1, 2, 0) ∧
    (∀ i, measuredFirst.gates[π i]? = measuredLast.gates[i]?) ∧ measuredFirst.depth = measuredLast.depth ∧
    ∃ r r', lateInWords.schedule measuredLast = .ok r ∧ lateInWords.schedule measuredFirst = .ok r' ∧
      (r.timed.map fun t => (t.index, t.layer, t.start, t.finish)) =
        [(0, 0, 2, 154), (2, 1, 159, 1159), (1, 1, 1123, 1159)] ∧
      r'.timed.Perm (r.timed.map fun t => { t with index := π t.index }) ∧ r'.makespan = r.makespan := by
  have h : Exchanges measuredLast.gates measuredFirst.gates (Equiv.swap 0 1 * (Equiv.swap 1 2 * 1)) :=
    .step [] [⟨.h, [5], [], by decide⟩] ⟨.cnot, [5, 3], [], by decide⟩ ⟨.measure, [6], [], by decide⟩
      (.step [⟨.cnot, [5, 3], [], by decide⟩] [] ⟨.h, [5], [], by decide⟩ ⟨.measure, [6], [], by decide⟩ (.refl _)
        (by decide)) (by decide)
  obtain ⟨hgates, hdepth, hiff, hsame⟩ := exchanges_keep_schedule (s := lateInWords) h
  obtain ⟨r, hr, ht⟩ := exists_ok_of_map (x := lateInWords.schedule measuredLast)
    (f := fun r => r.timed.map fun t => (t.index, t.layer, t.start, t.finish))
    (b := [(0, 0, 2, 154), (2, 1, 159, 1159), (1, 1, 1123, 1159)])
    (by decide +kernel)
  obtain ⟨r', hr'⟩ := hiff.mp ⟨r, hr⟩
  exact ⟨_, h, by decide, hgates, hdepth, r, r', hr, hr', ht, hsame r r' hr hr'⟩

end Scheduler

end CircuitMapping
