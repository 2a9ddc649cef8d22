/-
  CircuitMapping.Proofs.Timing.Makespan — how long schedules take.

  The qubits of a gate are free when its layer starts, since no other gate of the layer is on them. So every gate of a
  layer starts with it, behind its delay (`exists_timeNode`), and the next layer starts when the longest of them, delays
  included, has ended. This gives the times of all gates in closed form (`timeForward_eq`), however times are added and
  whether the delays are in front of the gates or behind them. As integers, the end of all is the sum over the layers
  (`foldl_release_laidOut`).

  As late as possible takes the longer of the two ends, and the first layer of the reversed circuit reaches it
  (`makespan_reflect`). So as late as possible takes as long as the circuit and its reverse do as soon as possible,
  whichever is longer (`makespan_laws`).
-/
import CircuitMapping.Proofs.Timing.Timeline

namespace CircuitMapping

open Success

namespace Scheduler

open Dependencies

section

variable {a : Arithmetic} {s : Scheduler a} {trailing : Bool}

/-! ## Layer by layer -/

/-- When a gate starts in a layer that starts at `base`, where its qubits are free. -/
def startAt (s : Scheduler a) (trailing : Bool) (base : Int) (g : Gate) : Int :=
  if trailing then base else a.hold (base + s.delayOf g)

def finishAt (s : Scheduler a) (trailing : Bool) (base : Int) (g : Gate) : Int :=
  a.hold (s.startAt trailing base g + a.hold (s.lasts g))

/-- When its qubits are free again. -/
def freeAt (s : Scheduler a) (trailing : Bool) (base : Int) (g : Gate) : Int :=
  if trailing then a.hold (s.finishAt trailing base g + s.delayOf g) else s.finishAt trailing base g

/-- The end of a layer that starts at `base`. -/
def layerEnd (s : Scheduler a) (trailing : Bool) (base : Int) (gs : List Gate) : Int :=
  gs.foldl (fun m g => max m (s.freeAt trailing base g)) base

/-- A node timed in a layer that starts at `base`. -/
def timedAt (s : Scheduler a) (trailing : Bool) (layer : Nat) (base : Int) (n : Node) : TimedGate :=
  ⟨n.gate, n.id, layer, s.startAt trailing base n.gate, s.finishAt trailing base n.gate⟩

/-- The nodes of some layers timed one layer after the other, the first of them layer `k`. -/
def laidOut (s : Scheduler a) (trailing : Bool) : Nat → Int → List (List Node) → List TimedGate
  | _, _, [] => []
  | k, base, ns :: ls =>
    ns.map (s.timedAt trailing k base) ++ laidOut s trailing (k + 1) (s.layerEnd trailing base (ns.map (·.gate))) ls

/-- A gate whose qubits are free starts with its layer. -/
theorem exists_timeNode (trailing : Bool) (layer : Nat) {base : Int} {p : Progress} {n : Node}
    (hd : s.durationOf n.gate = .ok (s.lasts n.gate)) (hfree : ∀ q ∈ n.gate.qubits, p.free q ≤ base) :
    ∃ p', s.timeNode trailing layer base p n = .ok p' ∧ p'.timed = p.timed ++ [s.timedAt trailing layer base n] ∧
      p'.ends = max p.ends (s.freeAt trailing base n.gate) ∧
      ∀ q, p'.free q = if q ∈ n.gate.qubits then s.freeAt trailing base n.gate else p.free q := by
  have hready : n.gate.qubits.foldl (fun r q => max r (p.free q)) base = base :=
    le_antisymm (foldl_max_le_iff.mpr ⟨le_rfl, hfree⟩) (le_foldl_max ..)
  refine ⟨_, bind_eq_ok.mpr ⟨_, hd, rfl⟩, ?_⟩
  simp only [hready]
  exact ⟨rfl, rfl, fun _ => rfl⟩

/-- The nodes of a layer do not get in each other's way. -/
theorem exists_timeLayer (trailing : Bool) (layer : Nat) {base : Int} {p : Progress} {ns : List Node}
    (hd : ∀ n ∈ ns, s.durationOf n.gate = .ok (s.lasts n.gate)) (hm : ns.Pairwise fun n m => ¬ n.gate.Meets m.gate)
    (hbase : ∀ n ∈ ns, ∀ q ∈ n.gate.qubits, p.free q ≤ base) (hfree : ∀ q, p.free q ≤ p.ends) :
    ∃ p', ns.foldlM (s.timeNode trailing layer base) p = .ok p' ∧
      p'.timed = p.timed ++ ns.map (s.timedAt trailing layer base) ∧
      p'.ends = ns.foldl (fun m n => max m (s.freeAt trailing base n.gate)) p.ends ∧ ∀ q, p'.free q ≤ p'.ends := by
  induction ns generalizing p with
  | nil => exact ⟨p, rfl, by simp, rfl, hfree⟩
  | cons n ns ih =>
    obtain ⟨hdn, hd⟩ := List.forall_mem_cons.mp hd
    obtain ⟨hbn, hbase⟩ := List.forall_mem_cons.mp hbase
    obtain ⟨hmn, hm⟩ := List.pairwise_cons.mp hm
    obtain ⟨u, hu, hutimed, huends, hufree⟩ := exists_timeNode trailing layer hdn hbn
    have hbase' : ∀ m ∈ ns, ∀ q ∈ m.gate.qubits, u.free q ≤ base := by
      intro m hmem q hq
      rw [hufree, if_neg fun hqn => hmn m hmem ⟨q, hqn, hq⟩]
      exact hbase m hmem q hq
    have hfree' : ∀ q, u.free q ≤ u.ends := by
      intro q
      rw [hufree, huends]
      split
      · exact le_max_right _ _
      · exact (hfree q).trans (le_max_left _ _)
    obtain ⟨p', hp', htimed, hends, hle⟩ := ih hd hm hbase' hfree'
    refine ⟨p', bind_eq_ok.mpr ⟨u, hu, hp'⟩, ?_, ?_, hle⟩
    · rw [htimed, hutimed, List.map_cons, List.append_assoc]
      rfl
    · rw [hends, huends]
      rfl

theorem exists_timeLayers (trailing : Bool) {ls : List (List Node)} (k : Nat) {p : Progress}
    (hd : ∀ ns ∈ ls, ∀ n ∈ ns, s.durationOf n.gate = .ok (s.lasts n.gate))
    (hm : ∀ ns ∈ ls, ns.Pairwise fun n m => ¬ n.gate.Meets m.gate) (hfree : ∀ q, p.free q ≤ p.ends) :
    ∃ p', (ls.zipIdx k).foldlM (s.timeLayer trailing) p = .ok p' ∧
      p'.timed = p.timed ++ s.laidOut trailing k p.ends ls := by
  induction ls generalizing k p with
  | nil => exact ⟨p, rfl, by simp [laidOut]⟩
  | cons ns ls ih =>
    obtain ⟨hdn, hd⟩ := List.forall_mem_cons.mp hd
    obtain ⟨hmn, hm⟩ := List.forall_mem_cons.mp hm
    obtain ⟨u, hu, htimed, hends, hfree'⟩ := exists_timeLayer trailing k hdn hmn
      (fun _ _ q _ => hfree q) hfree
    obtain ⟨p', hp', htimed'⟩ := ih (k + 1) hd hm hfree'
    refine ⟨p', bind_eq_ok.mpr ⟨u, hu, hp'⟩, ?_⟩
    rw [htimed', htimed, hends, List.append_assoc, laidOut, layerEnd, List.foldl_map]

/-- Every gate is timed where its layer starts. -/
theorem timeForward_eq {c : Circuit} (h : s.TimesAll c) (trailing : Bool) :
    s.timeForward trailing c = .ok (s.laidOut trailing 0 0 (ofCircuit c).layers) := by
  obtain ⟨p, hp, htimed⟩ := exists_timeLayers trailing 0 (p := .start)
    (fun ns hns n hn => h _ (gate_mem_of_mem_nodes (mem_nodes_of_mem_layers hns hn)))
    (fun ns hns => pairwise_of_mem_layers hns) (fun _ => le_rfl)
  refine bind_eq_ok.mpr ⟨p, hp, ?_⟩
  rw [htimed]
  rfl

/-- The end of some layers, the first of which starts at `base`. -/
def layersEnd (s : Scheduler a) (trailing : Bool) (base : Int) (ls : List (List Gate)) : Int :=
  ls.foldl (s.layerEnd trailing) base

theorem timedAt_of_mem_laidOut {k : Nat} {base : Int} {ls : List (List Node)} {t : TimedGate}
    (h : t ∈ s.laidOut trailing k base ls) : ∃ i ns, ls[i]? = some ns ∧ ∃ n ∈ ns,
      t = s.timedAt trailing (k + i) (s.layersEnd trailing base ((ls.take i).map fun ns => ns.map (·.gate))) n := by
  induction ls generalizing k base with
  | nil => cases h
  | cons ns ls ih =>
    rcases List.mem_append.mp h with h | h
    · obtain ⟨n, hn, rfl⟩ := List.mem_map.mp h
      exact ⟨0, ns, rfl, n, hn, rfl⟩
    · obtain ⟨i, ms, hms, n, hn, rfl⟩ := ih h
      refine ⟨i + 1, ms, hms, n, hn, ?_⟩
      rw [Nat.succ_add_eq_add_succ]
      rfl

/-! ## The time of a layer -/

/-- The time of a gate and its delay. -/
def span (s : Scheduler a) (g : Gate) : Nat := s.delayOf g + s.lasts g

/-- The same scheduler with a policy. -/
def under (s : Scheduler a) (p : Timing.Policy) : Scheduler a := { s with policy := p }

end

variable {s : Scheduler} {trailing : Bool}

/-- The time of the longest gate of a layer, delays included. -/
def layerSpan (s : Scheduler) (ns : List Node) : Nat := ns.foldl (fun m n => max m (s.span n.gate)) 0

/-- The time of some layers one after the other. -/
def layersSpan (s : Scheduler) : List (List Node) → Nat
  | [] => 0
  | ns :: ls => s.layerSpan ns + layersSpan s ls

theorem startAt_eq (s : Scheduler) (trailing : Bool) (base : Int) (g : Gate) :
    s.startAt trailing base g = base + s.lead trailing g := by
  cases trailing <;> simp [startAt, lead]

theorem finishAt_eq (s : Scheduler) (trailing : Bool) (base : Int) (g : Gate) :
    s.finishAt trailing base g = base + s.lead trailing g + s.lasts g := by
  rw [finishAt, startAt_eq, Arithmetic.hold_exact, Arithmetic.hold_exact]

theorem freeAt_eq (s : Scheduler) (trailing : Bool) (base : Int) (g : Gate) :
    s.freeAt trailing base g = base + s.span g := by
  cases trailing <;> simp [freeAt, finishAt_eq, lead, span] <;> omega

theorem release_timedAt (s : Scheduler) (trailing : Bool) (layer : Nat) (base : Int) (n : Node) :
    s.release trailing (s.timedAt trailing layer base n) = base + s.span n.gate := by
  rw [← freeAt_eq s trailing]
  cases trailing <;> simp [release, timedAt, freeAt]

/-- The end of a layer that starts at `base`. -/
theorem foldl_max_span (s : Scheduler) (base : Int) (ns : List Node) :
    ns.foldl (fun m n => max m (base + s.span n.gate)) base = base + s.layerSpan ns := by
  have shifted : ∀ m : Nat, ns.foldl (fun m n => max m (base + s.span n.gate)) (base + m)
      = base + (ns.foldl (fun m n => max m (s.span n.gate)) m : Nat) := by
    induction ns with
    | nil => intro m; rfl
    | cons n ns ih =>
      intro m
      rw [List.foldl_cons, List.foldl_cons, ← ih]
      congr 1
      omega
  unfold layerSpan
  simpa using shifted 0

theorem layerEnd_eq (s : Scheduler) (trailing : Bool) (base : Int) (ns : List Node) :
    s.layerEnd trailing base (ns.map (·.gate)) = base + s.layerSpan ns := by
  rw [layerEnd, List.foldl_map, ← foldl_max_span]
  simp only [freeAt_eq]

theorem layersEnd_eq (s : Scheduler) (trailing : Bool) (base : Int) (ls : List (List Node)) :
    s.layersEnd trailing base (ls.map fun ns => ns.map (·.gate)) = base + s.layersSpan ls := by
  induction ls generalizing base with
  | nil => simp [layersEnd, layersSpan]
  | cons ns ls ih =>
    rw [List.map_cons, layersEnd, List.foldl_cons, layerEnd_eq]
    refine (ih _).trans ?_
    rw [layersSpan]
    omega

theorem mem_laidOut {k : Nat} {base : Int} {ls : List (List Node)} {t : TimedGate}
    (h : t ∈ s.laidOut trailing k base ls) :
    ∃ i ns, ls[i]? = some ns ∧ ∃ n ∈ ns, t = s.timedAt trailing (k + i) (base + s.layersSpan (ls.take i)) n := by
  obtain ⟨i, ns, hns, n, hn, rfl⟩ := timedAt_of_mem_laidOut h
  rw [layersEnd_eq]
  exact ⟨i, ns, hns, n, hn, rfl⟩

/-- All layers end after the sum of their times. -/
theorem foldl_release_laidOut (s : Scheduler) (trailing : Bool) (k : Nat) (base : Int) (ls : List (List Node)) :
    (s.laidOut trailing k base ls).foldl (fun m t => max m (s.release trailing t)) base
      = base + s.layersSpan ls := by
  induction ls generalizing k base with
  | nil => simp [laidOut, layersSpan]
  | cons ns ls ih =>
    rw [laidOut, List.foldl_append, List.foldl_map]
    simp only [release_timedAt]
    rw [foldl_max_span, layerEnd_eq, ih]
    simp only [layersSpan]
    omega

/-! ## As soon as possible -/

theorem makespan_ofTimed (width : Nat) (ts : List TimedGate) :
    (Schedule.ofTimed width ts).makespan = ts.foldl (fun m t => max m t.finish) 0 :=
  foldl_max_eq_of_mem_iff (fun _ => (timed_perm width ts).mem_iff) ..

theorem endOf_forward (s : Scheduler) (ls : List (List Node)) :
    endOf (fun _ => 0) (s.laidOut false 0 0 ls) = s.layersSpan ls := by
  have := s.foldl_release_laidOut false 0 0 ls
  rwa [Int.zero_add] at this

theorem endOf_backward (s : Scheduler) (ls : List (List Node)) :
    endOf s.delayOf (s.laidOut true 0 0 ls) = s.layersSpan ls := by
  have := s.foldl_release_laidOut true 0 0 ls
  rwa [Int.zero_add] at this

theorem makespan_forward (s : Scheduler) (width : Nat) (ls : List (List Node)) :
    (Schedule.ofTimed width (s.laidOut false 0 0 ls)).makespan = s.layersSpan ls := by
  rw [makespan_ofTimed, ← endOf_forward]
  simp [endOf]

/-! ## As late as possible -/

theorem layers_reversed_reversed (c : Circuit) :
    (ofCircuit c.reversed.reversed).layers = (ofCircuit c).layers := by
  unfold ofCircuit
  rw [Circuit.gates_reversed, Circuit.gates_reversed, List.reverse_reverse]
  rfl

/-- Reflected gates of which the first starts at 0 end with the axis. -/
theorem makespan_reflect {ts : List TimedGate} {axis : Int} (haxis : 0 ≤ axis) (hstart : ∀ t ∈ ts, 0 ≤ t.start)
    (hfirst : axis = 0 ∨ ∃ t ∈ ts, t.start = 0) (width size layers : Nat) :
    (Schedule.ofTimed width (ts.map (reflect axis size layers))).makespan = axis := by
  rw [makespan_ofTimed, List.foldl_map]
  refine le_antisymm (foldl_max_le_iff.mpr ⟨haxis, ?_⟩) ?_
  · intro t ht
    have := hstart t ht
    simp only [reflect]
    omega
  · rcases hfirst with rfl | ⟨t, ht, hzero⟩
    · exact le_foldl_max ..
    · have := le_foldl_max_of_mem (fun t => (reflect axis size layers t).finish) 0 ht
      simpa [reflect, hzero] using this

theorem start_nonneg_of_mem_laidOut {k : Nat} {ls : List (List Node)} {t : TimedGate}
    (h : t ∈ s.laidOut trailing k 0 ls) : 0 ≤ t.start := by
  obtain ⟨i, ns, -, n, -, rfl⟩ := mem_laidOut h
  simp only [timedAt, startAt_eq]
  omega

theorem exists_start_eq_zero (s : Scheduler) (trailing : Bool) {c : Circuit} (h : (ofCircuit c).layers ≠ []) :
    ∃ t ∈ s.laidOut trailing 0 0 (ofCircuit c).layers, t.start = s.lead trailing t.gate := by
  have hne : ∀ ns ∈ (ofCircuit c).layers, ns ≠ [] := fun _ => ne_nil_of_mem_layers
  match hl : (ofCircuit c).layers with
  | [] => exact absurd hl h
  | [] :: ls =>
    rw [hl] at hne
    exact absurd rfl (hne [] (List.mem_cons_self ..))
  | (n :: ns) :: ls =>
    exact ⟨_, List.mem_append_left _ (List.mem_cons_self ..), (startAt_eq ..).trans (Int.zero_add _)⟩

/-- The later of the two ends. -/
theorem axis_eq (s : Scheduler) (ls ls' : List (List Node)) :
    max (endOf (fun _ => 0) (s.laidOut false 0 0 ls)) (endOf s.delayOf (s.laidOut true 0 0 ls'))
      = (max (s.layersSpan ls) (s.layersSpan ls') : Nat) := by
  rw [endOf_forward, endOf_backward]
  omega

theorem exists_backward {c : Circuit} (h : s.TimesAll c) : ∃ ts, s.timeBackward c = .ok ts ∧
    ∀ width, (Schedule.ofTimed width ts).makespan =
      (max (s.layersSpan (ofCircuit c).layers) (s.layersSpan (ofCircuit c.reversed).layers) : Nat) := by
  refine ⟨_, bind_eq_ok.mpr ⟨_, timeForward_eq h false, bind_eq_ok.mpr ⟨_, timeForward_eq h.reversed true, rfl⟩⟩, ?_⟩
  intro width
  rw [axis_eq]
  refine makespan_reflect (Int.natCast_nonneg _) (fun t => start_nonneg_of_mem_laidOut) ?_ ..
  by_cases hnil : (ofCircuit c.reversed).layers = []
  · have hc : (ofCircuit c).layers = [] := by
      rw [layers_eq_nil_iff, Circuit.gates_reversed, List.reverse_eq_nil_iff] at hnil
      rwa [layers_eq_nil_iff]
    rw [hnil, hc]
    exact .inl rfl
  · exact .inr (s.exists_start_eq_zero true hnil)

/-! ## Both policies -/

theorem schedule_asap {c : Circuit} (h : s.TimesAll c) : (s.under .asSoonAsPossible).schedule c =
    .ok (Schedule.ofTimed c.width (s.laidOut false 0 0 (ofCircuit c).layers)) := by
  have hf : (s.under .asSoonAsPossible).timeForward false c = _ := timeForward_eq h false
  exact bind_eq_ok.mpr ⟨_, hf, rfl⟩

theorem exists_schedule_alap {c : Circuit} (h : s.TimesAll c) : ∃ r, (s.under .asLateAsPossible).schedule c = .ok r ∧
    r.makespan = (max (s.layersSpan (ofCircuit c).layers) (s.layersSpan (ofCircuit c.reversed).layers) : Nat) := by
  obtain ⟨ts, hts, hm⟩ := exists_backward h
  have hb : (s.under .asLateAsPossible).timeBackward c = .ok ts := hts
  exact ⟨_, bind_eq_ok.mpr ⟨ts, hb, rfl⟩, hm c.width⟩

/-- As soon as possible, every gate starts, behind its delay, after the sum of the times of the layers before it, and
    the schedule takes the sum over all layers. As late as possible takes as long as the circuit or its reverse does as
    soon as possible, whichever is longer; so it is never shorter, and the reverse takes the same. -/
theorem makespan_laws {s : Scheduler} {c : Circuit} {r : Schedule} (h : s.schedule c = .ok r) :
    (∀ g ∈ c.gates, s.durationOf g = .ok (s.lasts g)) ∧
    ∃ asap asapReversed alap alapReversed,
      (s.under .asSoonAsPossible).schedule c = .ok asap ∧
      (s.under .asSoonAsPossible).schedule c.reversed = .ok asapReversed ∧
      (s.under .asLateAsPossible).schedule c = .ok alap ∧
      (s.under .asLateAsPossible).schedule c.reversed = .ok alapReversed ∧
      (∀ t ∈ asap.timed,
        (∃ ns, (ofCircuit c).layers[t.layer]? = some ns ∧ ∃ n ∈ ns, n.id = t.index ∧ n.gate = t.gate) ∧
        t.start = s.layersSpan ((ofCircuit c).layers.take t.layer) + s.delayOf t.gate) ∧
      asap.makespan = s.layersSpan (ofCircuit c).layers ∧
      alap.makespan = max asap.makespan asapReversed.makespan ∧
      asap.makespan ≤ alap.makespan ∧
      alap.makespan = alapReversed.makespan := by
  have ht := timesAll_of_schedule h
  obtain ⟨alap, halap, hm⟩ := exists_schedule_alap ht
  obtain ⟨alapReversed, halapReversed, hm'⟩ := exists_schedule_alap ht.reversed
  rw [layers_reversed_reversed] at hm'
  refine ⟨ht, _, _, alap, alapReversed, schedule_asap ht, schedule_asap ht.reversed, halap, halapReversed, ?_, ?_⟩
  · intro t hmem
    obtain ⟨i, ns, hns, n, hn, rfl⟩ := mem_laidOut ((Schedule.sort_perm _).mem_iff.mp hmem)
    simp only [timedAt, Nat.zero_add]
    refine ⟨⟨ns, hns, n, hn, rfl, rfl⟩, ?_⟩
    simp [startAt_eq, lead]
  · rw [makespan_forward, makespan_forward, hm, hm']
    omega

/-- A long measurement beside two gates, of which it is in one layer with the first or with the last. -/
def besideMeasurement : Circuit where
  width := 5
  entries := Circuit.number [⟨.cnot, [2, 1], [], by decide⟩, ⟨.h, [2], [], by decide⟩, ⟨.measure, [4], [], by decide⟩]
  width_pos := by decide
  in_range := by decide

/-- The reverse takes longer as soon as possible, and that long is what the circuit takes as late as possible. -/
theorem makespan_laws_besideMeasurement : ∃ r, lateOnClock.schedule besideMeasurement = .ok r ∧
    (∀ g ∈ besideMeasurement.gates, lateOnClock.durationOf g = .ok (lateOnClock.lasts g)) ∧
    ∃ asap asapReversed alap alapReversed,
      (lateOnClock.under .asSoonAsPossible).schedule besideMeasurement = .ok asap ∧
      (lateOnClock.under .asSoonAsPossible).schedule besideMeasurement.reversed = .ok asapReversed ∧
      (lateOnClock.under .asLateAsPossible).schedule besideMeasurement = .ok alap ∧
      (lateOnClock.under .asLateAsPossible).schedule besideMeasurement.reversed = .ok alapReversed ∧
      (∀ t ∈ asap.timed,
        (∃ ns, (ofCircuit besideMeasurement).layers[t.layer]? = some ns ∧ ∃ n ∈ ns, n.id = t.index ∧ n.gate = t.gate) ∧
        t.start = lateOnClock.layersSpan ((ofCircuit besideMeasurement).layers.take t.layer)
          + lateOnClock.delayOf t.gate) ∧
      asap.makespan = lateOnClock.layersSpan (ofCircuit besideMeasurement).layers ∧
      alap.makespan = max asap.makespan asapReversed.makespan ∧
      asap.makespan ≤ alap.makespan ∧
      alap.makespan = alapReversed.makespan ∧
      asap.makespan = 1043 ∧ asapReversed.makespan = 1159 := by
  obtain ⟨r, hr, -⟩ := exists_ok_of_map (x := lateOnClock.schedule besideMeasurement) (f := (·.makespan)) (b := 1159)
    (by decide +kernel)
  obtain ⟨hd, asap, asapReversed, alap, alapReversed, ha, har, hl, hlr, hstart, hm, hmax, hle, hsame⟩ :=
    makespan_laws hr
  refine ⟨r, hr, hd, asap, asapReversed, alap, alapReversed, ha, har, hl, hlr, hstart, hm, hmax, hle, hsame, ?_, ?_⟩
  · rw [hm]
    decide +kernel
  · obtain ⟨r', hr', hm'⟩ := exists_ok_of_map
      (x := (lateOnClock.under .asSoonAsPossible).schedule besideMeasurement.reversed) (f := (·.makespan)) (b := 1159)
      (by decide +kernel)
    rw [har] at hr'
    cases hr'
    exact hm'

end Scheduler

end CircuitMapping
