/-
  CircuitMapping.Proofs.Pipeline.EndToEnd — the schedule that comes out does what the circuit that went in does.

  However often it was tried and whichever attempt was best, the routed circuit is that of one attempt
  (`attempt_of_route`), and what an attempt put out is a run of blocks for the circuit (`blocksOf_of_attempt`). The
  schedule has its gates in another order, which changes nothing where its work is a word (`run_schedule`).

  So its gates, run on physical values in the order of their start times, do what the circuit does on logical ones: if
  both agree through the first layout, then in the end they agree through the final one (`schedule_computes_circuit`).
  Times beyond the last word come out before all others, and then so do their gates (`overflow_turns_gates_around`).
-/
import CircuitMapping.Proofs.Pipeline.Attempts
import CircuitMapping.Proofs.Placement.Requests
import CircuitMapping.Proofs.Routing.Agreement
import CircuitMapping.Proofs.Timing.Words

namespace CircuitMapping

open Success

universe u

/-! ## Passes -/

/-- A pass that came through, with its report, has an outcome. -/
theorem Report.run_eq_ok {α : Type} {outcome : Except Error α} {report : α → Except Error Report}
    {journal : Option Journal} {a : α} (h : (Report.run outcome report journal).1 = .ok a) : outcome = .ok a := by
  unfold Report.run at h
  split at h
  · cases h
  · exact h
  · split at h
    · cases h
    · exact h

namespace Pipeline

theorem reported_eq_ok {α : Type} {run : Option Journal → Except Error α × Option Journal} {j : Journal}
    {r : α × Journal} (h : reported run j = .ok r) : (run (some j)).1 = .ok r.1 := by
  unfold reported at h
  split at h
  · cases h
  · rename_i hr
    cases h
    rw [hr]

theorem exists_reported {α : Type} {run : Option Journal → Except Error α × Option Journal} {j : Journal} {a : α}
    (h : (run (some j)).1 = .ok a) : ∃ j', reported run j = .ok (a, j') := by
  unfold reported
  generalize run (some j) = x at h
  obtain ⟨outcome, after⟩ := x
  cases h
  exact ⟨_, rfl⟩

/-! ## Attempts -/

theorem routed_of_attempt {p : Pipeline} {c : Circuit} {seed : UInt64} {o : RouteOutcome}
    (h : p.attempt c seed = .ok o) :
    (∃ l, Routing.route { p.options.router with seed } c p.device (some l) = .ok o.routed) ∨
      Routing.routePinned { p.options.router with seed } p.options.request c p.device = .ok o.routed := by
  unfold attempt at h
  dsimp only at h
  split at h
  · obtain ⟨r, hr, h⟩ := bind_eq_ok.mp h
    cases pure_eq_ok.mp h
    exact .inr (Report.run_eq_ok (reported_eq_ok hr))
  · obtain ⟨l, -, h⟩ := bind_eq_ok.mp h
    obtain ⟨r, hr, h⟩ := bind_eq_ok.mp h
    cases pure_eq_ok.mp h
    exact .inl ⟨l.1, Report.run_eq_ok (reported_eq_ok hr)⟩
  · obtain ⟨l, -, h⟩ := bind_eq_ok.mp h
    obtain ⟨r, hr, h⟩ := bind_eq_ok.mp h
    cases pure_eq_ok.mp h
    exact .inl ⟨l.1, Report.run_eq_ok (reported_eq_ok hr)⟩

theorem blocksOf_of_attempt {p : Pipeline} {c : Circuit} {seed : UInt64} {o : RouteOutcome}
    (h : p.attempt c seed = .ok o) :
    c.width ≤ o.routed.initial.size ∧ ∃ bs, Routing.BlocksOf p.device c o.routed bs := by
  rcases routed_of_attempt h with ⟨l, hr⟩ | hr
  · obtain ⟨hc, hs, -, bs, hbs, -⟩ := Routing.routeWith_spec hr
    exact ⟨(hs.fits hc).1.ge, bs, hbs⟩
  · obtain ⟨hl, -, bs, hbs, -⟩ := Routing.routePinnedWith_spec hr
    exact ⟨Request.width_le_size hl, bs, hbs⟩

theorem attempt_of_route {p : Pipeline} {c : Circuit} {o : RouteOutcome} (h : p.route c = .ok o) :
    ∃ seed, p.attempt c seed = .ok o := by
  obtain ⟨m, k, -, hb⟩ := best_of_route h
  exact ⟨_, hb.outcome⟩

theorem run_eq_ok {p : Pipeline} {c : Circuit} {o : Outcome} (h : p.run c = .ok o) :
    ∃ (r : RouteOutcome) (s : Scheduler .words), p.route c = .ok r ∧ r.routed = o.routed ∧
      Scheduler.make p.durations p.options.timing = .ok s ∧
      reported (Pass.schedule s o.routed.circuit) r.journal = .ok (o.schedule, o.journal) := by
  obtain ⟨r, hr, h⟩ := bind_eq_ok.mp h
  obtain ⟨s, hs, h⟩ := bind_eq_ok.mp h
  obtain ⟨t, ht, h⟩ := bind_eq_ok.mp h
  cases pure_eq_ok.mp h
  exact ⟨r, s, hr, rfl, hs, ht⟩

theorem routed_of_run {p : Pipeline} {c : Circuit} {o : Outcome} (h : p.run c = .ok o) :
    ∃ r : RouteOutcome, p.route c = .ok r ∧ o.routed = r.routed ∧
      ∃ s : Scheduler .words, Scheduler.make p.durations p.options.timing = .ok s ∧
        s.schedule o.routed.circuit = .ok o.schedule := by
  obtain ⟨r, s, hr, he, hs, ht⟩ := run_eq_ok h
  exact ⟨r, hr, he.symm, s, hs, Report.run_eq_ok (reported_eq_ok ht)⟩

end Pipeline

/-! ## The meaning of a schedule -/

/-- The order of start times does what program order does. -/
theorem Scheduler.run_schedule {a : Arithmetic} {s : Scheduler a} {c : Circuit} (hfit : s.Fits c) {r : Schedule}
    (h : s.schedule c = .ok r) {W : Type u} (I : Meaning W) (v : Nat → W) :
    I.run (r.timed.map (·.gate)) v = I.run c.gates v := by
  rw [Scheduler.schedule_eq_exact hfit] at h
  obtain ⟨ht, hs⟩ := isTimeline_of_schedule h
  have hrun := I.run_eq_of_perm ht.perm (pairwise_zipIdx c.gates) (List.pairwise_map.mpr (ht.ordered hs)) v
  rw [List.map_map] at hrun
  rw [← List.zipIdx_map_fst 0 c.gates]
  exact hrun

namespace Pipeline

/-- Where the work of the routed circuit is a word, the gates of the schedule, in its order, take every physical state
    that agrees with a logical one to a state that agrees with what the circuit makes of that, whatever the operations
    do to the values of their qubits. -/
theorem schedule_computes_circuit {p : Pipeline} {c : Circuit} {o : Outcome} (h : p.run c = .ok o) :
    c.width ≤ o.routed.initial.size ∧ c.width ≤ o.routed.final.size ∧
    ∃ s : Scheduler .words, Scheduler.make p.durations p.options.timing = .ok s ∧
      s.schedule o.routed.circuit = .ok o.schedule ∧
      (s.Fits o.routed.circuit → ∀ {W : Type u} (I : Meaning W) (physical logical : Nat → W),
        o.routed.initial.Agrees physical logical →
        o.routed.final.Agrees (I.run (o.schedule.timed.map (·.gate)) physical) (I.run c.gates logical)) := by
  obtain ⟨r, hr, he, s, hmake, hs⟩ := routed_of_run h
  obtain ⟨seed, ha⟩ := attempt_of_route hr
  obtain ⟨hw, bs, hbs⟩ := blocksOf_of_attempt ha
  rw [← he] at hw hbs
  refine ⟨hw, ?_, s, hmake, hs, ?_⟩
  · rw [hbs.run.final, Layout.size_after]
    exact hw
  · intro hfit W I physical logical hag
    rw [Scheduler.run_schedule hfit hs]
    exact hbs.agrees I hag

/-- Four qubits in a row, two attempts, everything as late as possible. -/
def lateInARow : Pipeline where
  device := Routing.fourInARow
  durations := ⟨[("CNOT", 150), ("CZ", 120), ("Measure", 1000), ("SWAP", 300)], []⟩
  options := { attempts := 2, timing := { policy := .asLateAsPossible, gateDelay := 2, readoutDelay := 5, clock := 4 } }
  attempts_pos := by decide

/-- Two SWAPs are inserted beside the one of the circuit, and the last two gates change places in time. -/
theorem schedule_computes_circuit_allMeet : ∃ o, lateInARow.run Routing.allMeet = .ok o ∧ o.routed.swaps = 2 ∧
    o.schedule.timed.map (·.index) = [0, 1, 2, 3, 4, 6, 5] ∧
    Routing.allMeet.width ≤ o.routed.initial.size ∧ Routing.allMeet.width ≤ o.routed.final.size ∧
    ∃ s : Scheduler .words, Scheduler.make lateInARow.durations lateInARow.options.timing = .ok s ∧
      s.schedule o.routed.circuit = .ok o.schedule ∧ s.Fits o.routed.circuit ∧
      ∀ {W : Type u} (I : Meaning W) (physical logical : Nat → W), o.routed.initial.Agrees physical logical →
        o.routed.final.Agrees (I.run (o.schedule.timed.map (·.gate)) physical)
          (I.run Routing.allMeet.gates logical) := by
  obtain ⟨o, ho, hs⟩ := exists_ok_of_map (x := lateInARow.run Routing.allMeet)
    (f := fun o : Outcome => (o.routed.swaps, o.schedule.timed.map (·.index),
      (Scheduler.make lateInARow.durations lateInARow.options.timing).toOption.map fun s : Scheduler .words =>
        decide (s.Fits o.routed.circuit)))
    (b := (2, [0, 1, 2, 3, 4, 6, 5], some true))
    (by decide +kernel)
  obtain ⟨hswaps, hrest⟩ := Prod.mk.inj hs
  obtain ⟨horder, hfits⟩ := Prod.mk.inj hrest
  obtain ⟨hinitial, hfinal, s, hmake, hschedule, hagrees⟩ := schedule_computes_circuit ho
  rw [hmake] at hfits
  have hfit : s.Fits o.routed.circuit := of_decide_eq_true (Option.some.inj hfits)
  exact ⟨o, ho, hswaps, horder, hinitial, hfinal, s, hmake, hschedule, hfit, hagrees hfit⟩

/-- Four qubits in a row, where a Y gate takes almost as long as a word can tell. -/
def slowInARow : Pipeline where
  device := Routing.fourInARow
  durations := ⟨[("X", 1), ("Y", 9223372036854775806)], []⟩
  options := { timing := { gateDelay := 1 } }
  attempts_pos := by decide

/-- The long gate, and a short one behind it. -/
def longThenShort : Circuit where
  width := 4
  entries := Circuit.number [⟨.y, [1], [], by decide⟩, ⟨.x, [1], [], by decide⟩]
  width_pos := Nat.succ_pos 3
  in_range := by decide

/-- Y leaves 0 on its qubit and X leaves 1, whatever was there. -/
def leaving : Meaning Nat where
  effect op _ vs := match op with
    | .y => vs.map fun _ => 0
    | .x => vs.map fun _ => 1
    | _ => vs.reverse
  length_effect op _ vs := by cases op <;> simp
  effect_swap _ _ := rfl

/-- The start of the second gate comes out before that of the first, so that the schedule leaves 0 where the circuit
    leaves 1. -/
theorem overflow_turns_gates_around : ∃ o, slowInARow.run longThenShort = .ok o ∧
    o.schedule.timed.map (fun t => (t.index, t.start)) = [(1, -9223372036854775808), (0, 1)] ∧
    ¬ ∀ {W : Type} (I : Meaning W) (physical logical : Nat → W), o.routed.initial.Agrees physical logical →
      o.routed.final.Agrees (I.run (o.schedule.timed.map (·.gate)) physical) (I.run longThenShort.gates logical) := by
  obtain ⟨o, ho, hs⟩ := exists_ok_of_map (x := slowInARow.run longThenShort)
    (f := fun o => (o.schedule.timed.map (fun t => (t.index, t.start)), o.routed.final.placement[1]?,
      leaving.run (o.schedule.timed.map (·.gate)) (fun _ => 0) 2))
    (b := ([(1, -9223372036854775808), (0, 1)], some 2, 0))
    (by decide +kernel)
  obtain ⟨htimes, hrest⟩ := Prod.mk.inj hs
  obtain ⟨hplace, hvalue⟩ := Prod.mk.inj hrest
  refine ⟨o, ho, htimes, fun hall => ?_⟩
  have hagrees := hall leaving (fun _ => 0) (fun _ => 0) (fun _ _ _ => rfl) 1 2 hplace
  rw [hvalue] at hagrees
  exact absurd hagrees (by decide)

end Pipeline

end CircuitMapping
