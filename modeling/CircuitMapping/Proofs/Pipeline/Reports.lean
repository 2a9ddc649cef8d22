/-
  CircuitMapping.Proofs.Pipeline.Reports — the journal that comes out tells of the attempt that was kept.

  Every attempt has a journal of its own. At its end are the record and the metrics of routing, which tell its outcome,
  and in front of them at most those of placing, which tell the layout that routing started from
  (`journal_of_attempt`). Timing appends its record and its metric to the journal of the best attempt, and nothing of
  any other attempt gets there (`journal_of_run`).

  So the journal has one record for each pass of the method, in order, each with what came out in the end, and every
  metric of routing and timing once (`journal_tells_kept_attempt`).
-/
import CircuitMapping.Proofs.Journal.Passes
import CircuitMapping.Proofs.Pipeline.MoreAttempts

namespace CircuitMapping

open Success

/-- The passes of a method, in order. -/
def Pipeline.Method.passes : Pipeline.Method → List String
  | trivial => ["TrivialLayoutPass", "ShortestPathRouter", "TimingScheduler"]
  | sabre => ["SabreLayoutPass", "ShortestPathRouter", "TimingScheduler"]
  | custom => ["CustomLayoutPass", "TimingScheduler"]

namespace Pipeline

variable {p : Pipeline} {c : Circuit} {seed : UInt64}

/-- What a pass reports stands behind what was in the journal. -/
theorem journal_of_reported {α : Type} {name : String} {tells : α → Report → Prop}
    {pass : Option Journal → Except Error α × Option Journal} (hp : Reports name tells pass) {j : Journal}
    {a : α × Journal} (h : reported pass j = .ok a) :
    ∃ r : Report, r.record.pass = name ∧ tells a.1 r ∧ a.2 = ⟨j.records ++ [r.record], j.metrics ++ r.metrics⟩ := by
  obtain ⟨r, hname, htells, hj⟩ := hp.appended j a.1 (reported_eq_ok h)
  refine ⟨r, hname, htells, ?_⟩
  unfold reported at h
  split at h
  · cases h
  · rename_i after hrun
    cases h
    rw [hrun] at hj
    simp only at hj
    rw [hj]
    rfl

/-! ## The journal of an attempt -/

theorem journal_of_place {a : Layout × Journal} (hm : p.options.method ≠ .custom) (h : p.place c seed = .ok a) :
    ∃ record metrics, a.2 = ⟨[record], metrics⟩ ∧
      [record.pass, "ShortestPathRouter", "TimingScheduler"] = p.options.method.passes ∧
      record.initial = some a.1 ∧ record.final = some a.1 ∧ ∀ m ∈ metrics, m.1 = "layout_simulated_swaps" := by
  unfold place at h
  cases hmethod : p.options.method with
  | custom => exact absurd hmethod hm
  | sabre =>
    rw [if_pos hmethod] at h
    obtain ⟨r, hname, htells, hj⟩ := journal_of_reported (Pass.reports_placeSabre ..) h
    refine ⟨r.record, r.metrics, hj, ?_, htells.initial, htells.final, ?_⟩
    · rw [hname]
      rfl
    · intro m hmem
      exact List.mem_singleton.mp (htells.keys m hmem)
  | trivial =>
    rw [if_neg (by rw [hmethod]; decide)] at h
    obtain ⟨r, hname, htells, hj⟩ := journal_of_reported (Pass.reports_placeLowest ..) h
    refine ⟨r.record, r.metrics, hj, ?_, htells.initial, htells.final, ?_⟩
    · rw [hname]
      rfl
    · intro m hmem
      cases htells.keys m hmem

/-- The record of placing, where there is one, and that of routing. -/
theorem journal_of_attempt {o : RouteOutcome} (h : p.attempt c seed = .ok o) : ∃ placing metrics router,
    o.journal = ⟨placing ++ [⟨router, o.routed.circuit, some o.routed.initial, some o.routed.final⟩],
      metrics ++ [("swap_count", (o.routed.swaps : Int)), ("routed_depth", (o.routed.routedDepth : Int))]⟩ ∧
    placing.map (·.pass) ++ [router, "TimingScheduler"] = p.options.method.passes ∧
    (∀ record ∈ placing, record.initial = some o.routed.initial ∧ record.final = some o.routed.initial) ∧
    ∀ m ∈ metrics, m.1 = "layout_simulated_swaps" := by
  by_cases hm : p.options.method = .custom
  · rw [attempt_of_custom hm] at h
    obtain ⟨r, -, h⟩ := bind_eq_ok.mp h
    cases h
    refine ⟨[], [], "CustomLayoutPass", Report.appendTo_eq .., ?_, List.forall_mem_nil _, List.forall_mem_nil _⟩
    rw [hm]
    rfl
  · rw [attempt_of_place hm] at h
    obtain ⟨a, ha, h⟩ := bind_eq_ok.mp h
    obtain ⟨r, hr, h⟩ := bind_eq_ok.mp h
    cases h
    obtain ⟨record, metrics, hj, hname, hinitial, hfinal, hkeys⟩ := journal_of_place hm ha
    have hstart : r.initial = a.1 := (Routing.routeWith_spec hr).2.1
    refine ⟨[record], metrics, "ShortestPathRouter", ?_, hname, ?_, hkeys⟩
    · rw [Report.appendTo_eq, hj]
      rfl
    · rw [hstart]
      exact List.forall_mem_singleton.mpr ⟨hinitial, hfinal⟩

/-! ## The journal of a run -/

/-- Timing reports into the journal of the attempt that routing returned. -/
theorem journal_of_run {o : Outcome} (h : p.run c = .ok o) : ∃ r : RouteOutcome, p.route c = .ok r ∧
    r.routed = o.routed ∧
    o.journal = ⟨r.journal.records ++ [⟨"TimingScheduler", o.routed.circuit, none, none⟩],
      r.journal.metrics ++ [("makespan", o.schedule.makespan)]⟩ := by
  obtain ⟨r, s, hr, he, -, ht⟩ := run_eq_ok h
  obtain ⟨report, -, rfl, hj⟩ := journal_of_reported (Pass.atomic_schedule ..).toReports ht
  exact ⟨r, hr, he, hj⟩

/-- Metrics of searching are none of routing and timing. -/
theorem filter_simulated {metrics : List (String × Int)} (h : ∀ m ∈ metrics, m.1 = "layout_simulated_swaps")
    {key : String} (hkey : key ≠ "layout_simulated_swaps") : (metrics.filter fun m => m.1 == key) = [] := by
  refine List.filter_eq_nil_iff.mpr fun m hm he => ?_
  rw [h m hm] at he
  exact hkey (beq_iff_eq.mp he).symm

/-- The journal is that of the attempt kept and the report of timing behind it. It has one record for each pass of the
    method, in order: that of placing has the layout that routing started from, that of routing the routed circuit and
    its two layouts, and that of timing the routed circuit. The metrics of routing and timing are there once, with the
    values of the outcome, and the newest final layout is that of routing. -/
theorem journal_tells_kept_attempt {p : Pipeline} {c : Circuit} {o : Outcome} (h : p.run c = .ok o) :
    (∃ m k kept, p.Made c m ∧ Best (p.outcome c) m k kept ∧ kept.routed = o.routed ∧
      o.journal = ⟨kept.journal.records ++ [⟨"TimingScheduler", o.routed.circuit, none, none⟩],
        kept.journal.metrics ++ [("makespan", o.schedule.makespan)]⟩) ∧
    o.journal.records.map (·.pass) = p.options.method.passes ∧
    (∃ placing router, o.journal.records = placing ++
        [⟨router, o.routed.circuit, some o.routed.initial, some o.routed.final⟩,
          ⟨"TimingScheduler", o.routed.circuit, none, none⟩] ∧
      ∀ record ∈ placing, record.initial = some o.routed.initial ∧ record.final = some o.routed.initial) ∧
    o.journal.history "swap_count" = [(o.routed.swaps : Int)] ∧
    o.journal.history "routed_depth" = [(o.routed.routedDepth : Int)] ∧
    o.journal.history "makespan" = [o.schedule.makespan] ∧
    o.journal.finalLayout = some o.routed.final := by
  obtain ⟨kept, hroute, hrouted, hj⟩ := journal_of_run h
  obtain ⟨m, k, hmade, hbest⟩ := best_of_route hroute
  obtain ⟨placing, metrics, router, hattempt, hnames, hlayouts, hkeys⟩ := journal_of_attempt hbest.outcome
  rw [hrouted] at hattempt hlayouts
  have hrecords : o.journal.records = placing ++
      [⟨router, o.routed.circuit, some o.routed.initial, some o.routed.final⟩,
        ⟨"TimingScheduler", o.routed.circuit, none, none⟩] := by
    rw [hj, hattempt]
    exact List.append_assoc ..
  have hmetrics : o.journal.metrics = metrics ++ [("swap_count", (o.routed.swaps : Int)),
      ("routed_depth", (o.routed.routedDepth : Int)), ("makespan", o.schedule.makespan)] := by
    rw [hj, hattempt]
    exact List.append_assoc ..
  have hhistory : ∀ key, key ≠ "layout_simulated_swaps" → o.journal.history key =
      (List.filter (fun m => m.1 == key) [("swap_count", (o.routed.swaps : Int)),
        ("routed_depth", (o.routed.routedDepth : Int)), ("makespan", o.schedule.makespan)]).map (·.2) := by
    intro key hkey
    rw [Journal.history, hmetrics, List.filter_append, filter_simulated hkeys hkey, List.nil_append]
  refine ⟨⟨m, k, kept, hmade, hbest, hrouted, hj⟩, ?_, ⟨placing, router, hrecords, hlayouts⟩, ?_, ?_, ?_, ?_⟩
  · rw [← hnames, hrecords]
    exact List.map_append
  · exact hhistory "swap_count" (by decide)
  · exact hhistory "routed_depth" (by decide)
  · exact hhistory "makespan" (by decide)
  · rw [Journal.finalLayout, hrecords]
    simp

/-- Two attempts at routing with two SWAPs each: the journal has the metrics of one. -/
theorem journal_tells_kept_attempt_allMeet : ∃ o, lateInARow.run Routing.allMeet = .ok o ∧
    (o.journal.records.map (·.pass), o.journal.metrics) =
      (["TrivialLayoutPass", "ShortestPathRouter", "TimingScheduler"],
        [("swap_count", 2), ("routed_depth", 6), ("makespan", 2187)]) ∧
    (∃ m k kept, lateInARow.Made Routing.allMeet m ∧ Best (lateInARow.outcome Routing.allMeet) m k kept ∧
      kept.routed = o.routed ∧
      o.journal = ⟨kept.journal.records ++ [⟨"TimingScheduler", o.routed.circuit, none, none⟩],
        kept.journal.metrics ++ [("makespan", o.schedule.makespan)]⟩) ∧
    o.journal.records.map (·.pass) = lateInARow.options.method.passes ∧
    (∃ placing router, o.journal.records = placing ++
        [⟨router, o.routed.circuit, some o.routed.initial, some o.routed.final⟩,
          ⟨"TimingScheduler", o.routed.circuit, none, none⟩] ∧
      ∀ record ∈ placing, record.initial = some o.routed.initial ∧ record.final = some o.routed.initial) ∧
    o.journal.history "swap_count" = [(o.routed.swaps : Int)] ∧
    o.journal.history "routed_depth" = [(o.routed.routedDepth : Int)] ∧
    o.journal.history "makespan" = [o.schedule.makespan] ∧
    o.journal.finalLayout = some o.routed.final := by
  obtain ⟨o, ho, hj⟩ := exists_ok_of_map (x := lateInARow.run Routing.allMeet)
    (f := fun o => (o.journal.records.map (·.pass), o.journal.metrics))
    (b := (["TrivialLayoutPass", "ShortestPathRouter", "TimingScheduler"],
      [("swap_count", 2), ("routed_depth", 6), ("makespan", 2187)]))
    (by decide +kernel)
  exact ⟨o, ho, hj, journal_tells_kept_attempt ho⟩

end Pipeline

end CircuitMapping
