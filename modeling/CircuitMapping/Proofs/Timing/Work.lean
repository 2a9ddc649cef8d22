/-
  CircuitMapping.Proofs.Timing.Work — times are bounded by the work of a circuit.

  The work of a circuit is the time of all its gates and their delays, one after the other. A gate of a layer is ready
  no later than everything timed so far has ended, and occupies its qubits for its time and its delay from then on
  (`timeNode_occupies`), so it moves the end by no more than that (`charged_timeNode`). So in every state of a run the
  end is paid for by the gates timed so far, and no time of the state is later than the end (`Charged.within`). What a
  state has timed is still there at the end of the run (`exists_state`), which has timed every gate of the circuit once,
  so all states of a run stay within the work (`throughout_within`).

  The reversed circuit has the same work. So the axis of a reflection is no later than the work, and it comes after all
  that is reflected, which leaves no time negative (`within_reflect`). A word that the work fits into has room for all
  of these times (`times_within_work`).
-/
import CircuitMapping.Proofs.Timing.Makespan

namespace CircuitMapping

open Success

/-- A time from 0 up to a total, so that it fits into a word if the total does. -/
structure IsWithin (total : Nat) (t : Int) : Prop where
  nonneg : 0 ≤ t
  le : t ≤ total
  word : (total : Int) ≤ Int64.maxValue.toInt → (Int64.ofInt t).toInt = t

theorem isWithin_iff {total : Nat} {t : Int} : IsWithin total t ↔ 0 ≤ t ∧ t ≤ total where
  mp h := ⟨h.nonneg, h.le⟩
  mpr h := by
    refine ⟨h.1, h.2, fun hw => ?_⟩
    rw [Int64.toInt_maxValue] at hw
    exact Int64.toInt_ofInt_of_le (by omega) (by omega)

theorem isWithin_zero (total : Nat) : IsWithin total 0 := isWithin_iff.mpr ⟨le_rfl, Int.natCast_nonneg total⟩

theorem IsWithin.max {total : Nat} {t u : Int} (ht : IsWithin total t) (hu : IsWithin total u) :
    IsWithin total (max t u) :=
  isWithin_iff.mpr ⟨ht.nonneg.trans (le_max_left ..), max_le ht.le hu.le⟩

theorem IsWithin.foldl_max {ι : Type} {total : Nat} {f : ι → Int} {xs : List ι} (h : ∀ x ∈ xs, IsWithin total (f x)) :
    IsWithin total (xs.foldl (fun m x => Max.max m (f x)) 0) := by
  rcases foldl_max_eq_or_mem f xs 0 with he | ⟨x, hx, he⟩
  · rw [he]
    exact isWithin_zero total
  · rw [he]
    exact h x hx

namespace Scheduler

open Dependencies

variable {s : Scheduler} {trailing : Bool} {c : Circuit} {ts : List TimedGate}

/-! ## Work -/

section

variable {a : Arithmetic}

/-- The time of some gates and their delays, one after the other. -/
def load (s : Scheduler a) : List Gate → Nat
  | [] => 0
  | g :: gs => s.span g + load s gs

/-- The time of all gates of a circuit and their delays. -/
def work (s : Scheduler a) (c : Circuit) : Nat := s.load c.gates

theorem load_append (s : Scheduler a) (gs hs : List Gate) : s.load (gs ++ hs) = s.load gs + s.load hs := by
  induction gs with
  | nil => simp [load]
  | cons g gs ih => simp only [List.cons_append, load, ih, Nat.add_assoc]

theorem load_of_perm (s : Scheduler a) {gs hs : List Gate} (h : gs.Perm hs) : s.load gs = s.load hs := by
  induction h with
  | nil => rfl
  | cons g _ ih => rw [load, load, ih]
  | swap g g' gs => simp only [load, Nat.add_left_comm]
  | trans _ _ ih ih' => rw [ih, ih']

theorem work_reversed (s : Scheduler a) (c : Circuit) : s.work c.reversed = s.work c := by
  rw [work, work, Circuit.gates_reversed]
  exact s.load_of_perm (List.reverse_perm _)

theorem load_under (s : Scheduler a) (p : Timing.Policy) (gs : List Gate) : (s.under p).load gs = s.load gs := by
  induction gs with
  | nil => rfl
  | cons g gs ih => exact congrArg (s.span g + ·) ih

end

/-- A run times all the work of its circuit. -/
theorem load_of_timeForward (h : s.timeForward trailing c = .ok ts) : s.load (ts.map (·.gate)) = s.work c := by
  have hp := (perm_of_timeForward h).map Prod.fst
  rw [List.map_map, List.zipIdx_map_fst] at hp
  exact s.load_of_perm hp

/-! ## The end is paid for -/

/-- When a node is ready in a layer that starts at `base`: its qubits are free. -/
def readyAt (base : Int) (p : Progress) (n : Node) : Int := n.gate.qubits.foldl (fun r q => max r (p.free q)) base

/-- A node that is ready occupies its qubits for its time and its delay, whichever of the two comes first. -/
theorem timeNode_occupies {layer : Nat} {base : Int} {p p' : Progress} {n : Node}
    (h : s.timeNode trailing layer base p n = .ok p') :
    p'.timed.map (·.gate) = p.timed.map (·.gate) ++ [n.gate] ∧
    p'.ends = max p.ends (readyAt base p n + s.span n.gate) ∧
    ∀ q, p'.free q = if q ∈ n.gate.qubits then readyAt base p n + s.span n.gate else p.free q := by
  unfold timeNode at h
  obtain ⟨k, hk, h⟩ := bind_eq_ok.mp h
  have hfront : readyAt base p n + s.delayOf n.gate + k = readyAt base p n + s.span n.gate := by
    rw [span, lasts_eq hk]
    omega
  have hbehind : readyAt base p n + k + s.delayOf n.gate = readyAt base p n + s.span n.gate := by
    rw [span, lasts_eq hk]
    omega
  cases pure_eq_ok.mp h
  simp only [readyAt] at hfront hbehind ⊢
  cases trailing
  · simp [hfront]
  · simp [hbehind]

/-- No qubit is free later than the end, and the end is no later than the time of all gates timed so far. -/
structure Charged (s : Scheduler) (trailing : Bool) (layer : Nat) (base : Int) (p : Progress) : Prop where
  timely : s.Timely trailing layer base p
  free : ∀ q, 0 ≤ p.free q ∧ p.free q ≤ p.ends
  paid : p.ends ≤ s.load (p.timed.map (·.gate))

theorem charged_start : s.Charged trailing 0 0 .start where
  timely := timely_start
  free _ := ⟨le_rfl, le_rfl⟩
  paid := le_rfl

theorem charged_timeNode {layer : Nat} {base : Int} {p p' : Progress} {n : Node} (hp : s.Charged trailing layer base p)
    (h : s.timeNode trailing layer base p n = .ok p') : s.Charged trailing layer base p' := by
  obtain ⟨hgates, hends, hfree⟩ := timeNode_occupies h
  have hready : readyAt base p n ≤ p.ends :=
    foldl_max_le_iff.mpr ⟨hp.timely.base_le, fun q _ => (hp.free q).2⟩
  have hnonneg : 0 ≤ readyAt base p n := hp.timely.base_nonneg.trans (le_foldl_max p.free n.gate.qubits base)
  refine ⟨timely_timeNode hp.timely h, fun q => ?_, ?_⟩
  · have := hp.free q
    rw [hfree, hends]
    split <;> omega
  · have := hp.paid
    rw [hgates, load_append, hends]
    simp only [load]
    omega

theorem Charged.next {layer : Nat} {base : Int} {p : Progress} (h : s.Charged trailing layer base p) :
    s.Charged trailing (layer + 1) p.ends p where
  timely := h.timely.next
  free := h.free
  paid := h.paid

theorem charged_foldlM {layer : Nat} {base : Int} {p p' : Progress} {ns : List Node}
    (hp : s.Charged trailing layer base p) (h : ns.foldlM (s.timeNode trailing layer base) p = .ok p') :
    s.Charged trailing layer base p' :=
  foldlM_keeps (fun _ _ _ _ => charged_timeNode) hp h

theorem charged_of_foldlM {ls : List (List Node)} {k : Nat} {p p' : Progress} (hp : s.Charged trailing k p.ends p)
    (h : (ls.zipIdx k).foldlM (s.timeLayer trailing) p = .ok p') : s.Charged trailing (k + ls.length) p'.ends p' :=
  foldlM_zipIdx_keeps (P := fun k p => s.Charged trailing k p.ends p)
    (fun _ _ _ _ hp h => (charged_foldlM hp h).next) hp h

/-! ## States of a run -/

/-- All times of a state are within a total. -/
structure Progress.Within (s : Scheduler) (trailing : Bool) (total : Nat) (p : Progress) : Prop where
  free : ∀ q, IsWithin total (p.free q)
  ends : IsWithin total p.ends
  start : ∀ t ∈ p.timed, IsWithin total t.start
  finish : ∀ t ∈ p.timed, IsWithin total t.finish
  release : ∀ t ∈ p.timed, IsWithin total (s.release trailing t)

/-- It holds before the first layer and after every gate of every layer of a run, which gets there. -/
def Throughout (s : Scheduler) (trailing : Bool) (c : Circuit) (P : Progress → Prop) : Prop :=
  P .start ∧ ∀ before ns ms behind, (ofCircuit c).layers = before ++ (ns ++ ms) :: behind →
    ∃ p p', before.zipIdx.foldlM (s.timeLayer trailing) .start = .ok p ∧
      ns.foldlM (s.timeNode trailing before.length p.ends) p = .ok p' ∧ P p'

theorem Charged.within {layer : Nat} {base : Int} {p : Progress} (h : s.Charged trailing layer base p) {total : Nat}
    (hle : s.load (p.timed.map (·.gate)) ≤ total) : p.Within s trailing total := by
  have hends : p.ends ≤ total := h.paid.trans (Int.ofNat_le.mpr hle)
  have hbase := h.timely.base_nonneg.trans h.timely.base_le
  have htimes : ∀ t ∈ p.timed, 0 ≤ t.start ∧ t.start ≤ t.finish ∧ t.finish ≤ s.release trailing t ∧
      s.release trailing t ≤ p.ends := by
    intro t ht
    have hlead := h.timely.laid.lead t ht
    obtain ⟨k, -, hk⟩ := h.timely.laid.lasting t ht
    refine ⟨by omega, by omega, ?_, h.timely.ends t ht⟩
    unfold release
    split <;> omega
  refine ⟨fun q => ?_, ?_, fun t ht => ?_, fun t ht => ?_, fun t ht => ?_⟩
  · have := h.free q
    exact isWithin_iff.mpr (by omega)
  · exact isWithin_iff.mpr ⟨hbase, hends⟩
  · have := htimes t ht
    exact isWithin_iff.mpr (by omega)
  · have := htimes t ht
    exact isWithin_iff.mpr (by omega)
  · have := htimes t ht
    exact isWithin_iff.mpr (by omega)

theorem timed_prefix_of_foldlM {layer : Nat} {base : Int} {p p' : Progress} {ns : List Node}
    (h : ns.foldlM (s.timeNode trailing layer base) p = .ok p') : p.timed <+: p'.timed := by
  refine foldlM_keeps (P := fun u => p.timed <+: u.timed) ?_ (List.prefix_refl _) h
  intro u n _ u' hu hn
  obtain ⟨t, -, ht, -⟩ := timeNode_spec hn
  rw [ht]
  exact hu.trans (List.prefix_append ..)

theorem timed_prefix_of_layers {ls : List (List Node × Nat)} {p p' : Progress}
    (h : ls.foldlM (s.timeLayer trailing) p = .ok p') : p.timed <+: p'.timed := by
  refine foldlM_keeps (P := fun u => p.timed <+: u.timed) ?_ (List.prefix_refl _) h
  intro u l _ u' hu hl
  exact hu.trans (timed_prefix_of_foldlM hl)

/-- A run goes through the states behind every part of every layer, and keeps what they have timed. -/
theorem exists_state {before behind : List (List Node)} {ns ms : List Node} (h : s.timeForward trailing c = .ok ts)
    (hl : (ofCircuit c).layers = before ++ (ns ++ ms) :: behind) :
    ∃ p p', before.zipIdx.foldlM (s.timeLayer trailing) .start = .ok p ∧
      ns.foldlM (s.timeNode trailing before.length p.ends) p = .ok p' ∧ p'.timed <+: ts := by
  obtain ⟨last, hlast, h⟩ := bind_eq_ok.mp h
  cases pure_eq_ok.mp h
  rw [hl, List.zipIdx_append, List.foldlM_append, Nat.zero_add, List.zipIdx_cons] at hlast
  obtain ⟨p, hp, hlast⟩ := bind_eq_ok.mp hlast
  obtain ⟨u, hu, hlast⟩ := bind_eq_ok.mp hlast
  rw [timeLayer, List.foldlM_append] at hu
  obtain ⟨p', hp', hu⟩ := bind_eq_ok.mp hu
  exact ⟨p, p', hp, hp', (timed_prefix_of_foldlM hu).trans (timed_prefix_of_layers hlast)⟩

theorem throughout_within (h : s.timeForward trailing c = .ok ts) :
    s.Throughout trailing c (Progress.Within s trailing (s.work c)) := by
  refine ⟨charged_start.within (Nat.zero_le _), ?_⟩
  intro before ns ms behind hl
  obtain ⟨p, p', hp, hp', hprefix⟩ := exists_state h hl
  have hcharged := charged_foldlM (charged_of_foldlM charged_start hp) (by rwa [Nat.zero_add])
  refine ⟨p, p', hp, hp', hcharged.within ?_⟩
  obtain ⟨rest, hrest⟩ := hprefix
  rw [← load_of_timeForward h, ← hrest, List.map_append, load_append]
  exact Nat.le_add_right ..

theorem within_of_timeForward (h : s.timeForward trailing c = .ok ts) {t : TimedGate} (ht : t ∈ ts) :
    IsWithin (s.work c) t.start ∧ IsWithin (s.work c) t.finish ∧ IsWithin (s.work c) (s.release trailing t) := by
  have hload := load_of_timeForward h
  obtain ⟨p, hp, h⟩ := bind_eq_ok.mp h
  cases pure_eq_ok.mp h
  have hwithin := (charged_of_foldlM charged_start hp).within hload.le
  exact ⟨hwithin.start t ht, hwithin.finish t ht, hwithin.release t ht⟩

/-! ## Reflection -/

/-- The axis at which the gates of the reversed circuit are reflected. -/
def axisOf (s : Scheduler) (forward back : List TimedGate) : Int :=
  max (endOf (fun _ => 0) forward) (endOf s.delayOf back)

theorem isWithin_axisOf {forward back : List TimedGate} (hf : s.timeForward false c = .ok forward)
    (hb : s.timeForward true c.reversed = .ok back) : IsWithin (s.work c) (s.axisOf forward back) := by
  refine (IsWithin.foldl_max fun t ht => ?_).max (IsWithin.foldl_max fun t ht => ?_)
  · simpa using (within_of_timeForward hf ht).2.1
  · rw [← work_reversed]
    exact (within_of_timeForward hb ht).2.2

/-- What is reflected lies between 0 and the axis. -/
theorem within_reflect {forward back : List TimedGate} (hf : s.timeForward false c = .ok forward)
    (hb : s.timeForward true c.reversed = .ok back) {t : TimedGate} (ht : t ∈ back) :
    IsWithin (s.work c) (s.axisOf forward back - t.finish) ∧ IsWithin (s.work c) (s.axisOf forward back - t.start) := by
  have haxis := (isWithin_axisOf hf hb).le
  obtain ⟨hstart, hfinish, -⟩ := within_of_timeForward hb ht
  have hend : t.finish + s.delayOf t.gate ≤ s.axisOf forward back := (le_endOf s.delayOf ht).trans (le_max_right ..)
  obtain ⟨k, -, hk⟩ := (laid_of_timeForward hb).lasting t ht
  have := hstart.nonneg
  have := hfinish.nonneg
  exact ⟨isWithin_iff.mpr (by omega), isWithin_iff.mpr (by omega)⟩

theorem within_of_schedule {r : Schedule} (h : s.schedule c = .ok r) :
    IsWithin (s.work c) r.makespan ∧ ∀ t ∈ r.timed, IsWithin (s.work c) t.start ∧ IsWithin (s.work c) t.finish := by
  have htimes : ∀ t ∈ r.timed, IsWithin (s.work c) t.start ∧ IsWithin (s.work c) t.finish := by
    intro t ht
    obtain ⟨ts, rfl, ⟨-, hts⟩ | ⟨-, hts⟩⟩ := timed_of_schedule h
    · obtain ⟨hstart, hfinish, -⟩ := within_of_timeForward hts ((timed_perm _ ts).mem_iff.mp ht)
      exact ⟨hstart, hfinish⟩
    · obtain ⟨forward, back, hf, hb, rfl⟩ := timeBackward_eq_ok hts
      obtain ⟨u, hu, rfl⟩ := List.mem_map.mp ((timed_perm _ _).mem_iff.mp ht)
      exact within_reflect hf hb hu
  exact ⟨IsWithin.foldl_max fun t ht => (htimes t ht).2, htimes⟩

/-! ## Both policies -/

/-- No time that is computed for a circuit is negative or later than the time of all its gates and their delays, so that
    all of them fit into a word which that fits into: when qubits are free, the ends of layers, starts, ends and
    releases of gates in every state of both runs, the axis, what is reflected at it, and the schedules of both policies
    with their makespans. -/
theorem times_within_work {s : Scheduler} {c : Circuit} {r : Schedule} (h : s.schedule c = .ok r) :
    (∀ g ∈ c.gates, s.durationOf g = .ok (s.lasts g)) ∧
    s.Throughout false c (Progress.Within s false (s.work c)) ∧
    s.Throughout true c.reversed (Progress.Within s true (s.work c)) ∧
    (∃ forward back, s.timeForward false c = .ok forward ∧ s.timeForward true c.reversed = .ok back ∧
      s.timeBackward c = .ok (back.map (reflect (s.axisOf forward back) c.size c.depth)) ∧
      IsWithin (s.work c) (s.axisOf forward back) ∧
      ∀ t ∈ back, IsWithin (s.work c) (s.axisOf forward back - t.finish) ∧
        IsWithin (s.work c) (s.axisOf forward back - t.start)) ∧
    ∀ p, ∃ r', (s.under p).schedule c = .ok r' ∧ IsWithin (s.work c) r'.makespan ∧
      ∀ t ∈ r'.timed, IsWithin (s.work c) t.start ∧ IsWithin (s.work c) t.finish := by
  have ht := timesAll_of_schedule h
  have hf := timeForward_eq ht false
  have hb := timeForward_eq ht.reversed true
  have hback := throughout_within hb
  rw [work_reversed] at hback
  refine ⟨ht, throughout_within hf, hback, ⟨_, _, hf, hb, ?_, isWithin_axisOf hf hb, fun t => within_reflect hf hb⟩, ?_⟩
  · obtain ⟨ts, hts, -⟩ := exists_backward ht
    obtain ⟨forward, back, hf', hb', rfl⟩ := timeBackward_eq_ok hts
    cases hf.symm.trans hf'
    cases hb.symm.trans hb'
    exact hts
  · intro p
    obtain ⟨r', hr'⟩ := exists_schedule (s := s.under p) (c := c) ht
    have hwithin := within_of_schedule hr'
    rw [work, load_under] at hwithin
    exact ⟨r', hr', hwithin⟩

/-- A gate in front of a measurement, and another beside it. -/
def besideBoth : Circuit where
  width := 12
  entries := Circuit.number [⟨.cnot, [11, 6], [], by decide⟩, ⟨.h, [7], [], by decide⟩, ⟨.measure, [11], [], by decide⟩]
  width_pos := by decide
  in_range := by decide

/-- The work is 1197 units, of which the 38 of the gate beside the others are none of the makespan. -/
theorem times_within_work_besideBoth : lateOnClock.work besideBoth = 1197 ∧
    ∃ r, lateOnClock.schedule besideBoth = .ok r ∧ r.makespan = 1159 ∧
    (∀ g ∈ besideBoth.gates, lateOnClock.durationOf g = .ok (lateOnClock.lasts g)) ∧
    lateOnClock.Throughout false besideBoth (Progress.Within lateOnClock false (lateOnClock.work besideBoth)) ∧
    lateOnClock.Throughout true besideBoth.reversed (Progress.Within lateOnClock true (lateOnClock.work besideBoth)) ∧
    (∃ forward back, lateOnClock.timeForward false besideBoth = .ok forward ∧
      lateOnClock.timeForward true besideBoth.reversed = .ok back ∧
      lateOnClock.timeBackward besideBoth =
        .ok (back.map (reflect (lateOnClock.axisOf forward back) besideBoth.size besideBoth.depth)) ∧
      IsWithin (lateOnClock.work besideBoth) (lateOnClock.axisOf forward back) ∧
      ∀ t ∈ back, IsWithin (lateOnClock.work besideBoth) (lateOnClock.axisOf forward back - t.finish) ∧
        IsWithin (lateOnClock.work besideBoth) (lateOnClock.axisOf forward back - t.start)) ∧
    ∀ p, ∃ r', (lateOnClock.under p).schedule besideBoth = .ok r' ∧
      IsWithin (lateOnClock.work besideBoth) r'.makespan ∧
      ∀ t ∈ r'.timed, IsWithin (lateOnClock.work besideBoth) t.start ∧
        IsWithin (lateOnClock.work besideBoth) t.finish := by
  obtain ⟨r, hr, hm⟩ := exists_ok_of_map (x := lateOnClock.schedule besideBoth) (f := (·.makespan)) (b := 1159)
    (by decide +kernel)
  exact ⟨by decide +kernel, r, hr, hm, times_within_work hr⟩

end Scheduler

end CircuitMapping
