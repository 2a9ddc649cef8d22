/-
  CircuitMapping.Proofs.Pipeline.Session — a journal only grows, whatever a program does with it and its passes.

  A pass is attached where it was attached last (`context?_callAll`). A call writes to one journal at most: the one that
  it names, or the one that its pass is attached to. What it writes comes behind all that is there (`writes`): a record,
  a metric, or the report of a run that succeeded, under the name of the pass (`Job.reports`). So a call leaves a
  journal with newer entries behind it, if any (`exists_newer_call`), and so do calls in a row (`exists_newer`). From an
  empty session on, the entries before any calls are the first ones after them, and the newest answer first
  (`journals_only_grow`).
-/
import CircuitMapping.Pipeline.Session
import CircuitMapping.Proofs.Journal.Passes
import CircuitMapping.Proofs.Journal.Queries
import CircuitMapping.Proofs.Timing.Words

namespace CircuitMapping

/-! ## What a run reports -/

namespace Pass

/-- The layout that a run leaves the circuit on, if it tells one. -/
def Product.final? : Product → Option Layout
  | layout l => some l
  | routed r => some r.final
  | schedule _ => none

theorem reports_placeRequested (request : Request) (c : Circuit) (d : Device) :
    Reports "CustomLayoutPass" (TellsLayout []) (placeRequested request c d) :=
  reports_placing (request.layout c d) "CustomLayoutPass" id (fun _ => []) c d fun _ => List.forall_mem_nil _

/-- Every pass records under its name, with the layout that its product tells. -/
theorem Job.reports (job : Job) : Reports job.name (fun product r => r.record.final = product.final?) job.run := by
  cases job with
  | placeLowest c d => exact (reports_placeLowest c d).map Product.layout fun _ _ h => h.final
  | placeSabre o c d => exact (reports_placeSabre o c d).map Product.layout fun _ _ h => h.final
  | placeRequested request c d => exact (reports_placeRequested request c d).map Product.layout fun _ _ h => h.final
  | route o initial c d =>
    exact (atomic_route o initial c d).toReports.map Product.routed fun _ _ h => congrArg (·.record.final) h
  | routePinned o request c d =>
    exact (atomic_routePinned o request c d).toReports.map Product.routed fun _ _ h => congrArg (·.record.final) h
  | schedule s c =>
    exact (atomic_schedule s c).toReports.map Product.schedule fun _ _ h => congrArg (·.record.final) h

end Pass

namespace Session

variable {s : Session} {k p : Nat} {j : Journal} {x : Call} {xs : List Call}

theorem callAll_append (s : Session) (xs ys : List Call) : s.callAll (xs ++ ys) = (s.callAll xs).callAll ys :=
  List.foldl_append

/-! ## Where a pass is attached -/

theorem context?_report (s : Session) (i : Nat) (write : Journal → Journal) :
    (s.report i write).context? p = s.context? p := by
  unfold report
  split <;> rfl

theorem context?_attach {place : Option Nat} (hp : p < s.contexts.length)
    (hplace : ∀ k ∈ place, k < s.journals.length) : (s.call (.attach p place)).context? p = place := by
  have hall : (place.all fun k => decide (k < s.journals.length)) = true := by
    cases place with
    | none => rfl
    | some k => exact decide_eq_true (hplace k rfl)
  rw [call, attach, if_pos hall, context?]
  dsimp only
  rw [List.getElem?_set_self hp, Option.join_some]

theorem context?_call (hx : ∀ place, x ≠ .attach p place) : (s.call x).context? p = s.context? p := by
  cases x with
  | newJournal | record | measure => rfl
  | newPass =>
    -- a new pass is attached to none, and so is one that there is not
    rw [call, context?, context?]
    rcases Nat.lt_trichotomy p s.contexts.length with hp | rfl | hp
    · rw [List.getElem?_append_left hp]
    · simp
    · rw [List.getElem?_eq_none (by rwa [List.length_append]), List.getElem?_eq_none hp.le]
  | attach i place =>
    have hi : i ≠ p := fun hi => hx place (by rw [hi])
    rw [call, attach]
    split
    · exact congrArg Option.join (List.getElem?_set_ne hi)
    · rfl
  | note i | noteMetric i | run i => exact context?_report s i _

/-- A pass stays attached where it is until it is attached elsewhere. -/
theorem context?_callAll (hxs : ∀ x ∈ xs, ∀ place, x ≠ .attach p place) : (s.callAll xs).context? p = s.context? p := by
  induction xs generalizing s with
  | nil => rfl
  | cons x xs ih =>
    obtain ⟨hx, hxs⟩ := List.forall_mem_cons.mp hxs
    exact (ih hxs).trans (context?_call hx)

/-! ## Writing to one journal -/

theorem journal_writeTo (h : s.journals[k]? = some j) (write : Journal → Journal) :
    (s.writeTo k write).journals[k]? = some (write j) := by
  rw [writeTo, List.getElem?_modify_eq, h]
  rfl

theorem journal_writeTo_ne {i : Nat} (h : s.journals[k]? = some j) (hi : i ≠ k) (write : Journal → Journal) :
    (s.writeTo i write).journals[k]? = some j :=
  (List.getElem?_modify_ne _ _ hi).trans h

theorem journal_report (h : s.journals[k]? = some j) (hp : s.context? p = some k) (write : Journal → Journal) :
    (s.report p write).journals[k]? = some (write j) := by
  rw [report, hp]
  exact journal_writeTo h write

theorem journal_report_ne (h : s.journals[k]? = some j) (hp : s.context? p ≠ some k) (write : Journal → Journal) :
    (s.report p write).journals[k]? = some j := by
  unfold report
  split
  · rename_i i hi
    exact journal_writeTo_ne h (fun hik => hp (hi.trans (congrArg some hik))) write
  · exact h

theorem fst_run (h : s.journals[k]? = some j) (hp : s.context? p = some k) (job : Pass.Job) :
    (s.run p job).1 = (job.run (some j)).1 := by
  rw [run, hp, Option.bind_some, h]

/-- What a run leaves of the journal that its pass is attached to takes the journal's place. -/
theorem journal_run (h : s.journals[k]? = some j) (hp : s.context? p = some k) (job : Pass.Job) :
    (s.run p job).2.journals[k]? = some ((job.run (some j)).2.getD j) := by
  rw [run, hp, Option.bind_some, h]
  exact journal_report h hp _

/-! ## One call -/

/-- What the next call writes to the journal at `k`: a record or a metric, by the program itself or by a pass that is
    attached to it, or the report of a run of such a pass. A run that fails writes nothing, and a call whose target is
    another journal or none, as that of a pass that is attached elsewhere or to none, does not either. -/
structure Writes (s : Session) (k : Nat) (j : Journal) : Prop where
  record : ∀ r, (s.call (.record k r)).journals[k]? = some ⟨j.records ++ [r], j.metrics⟩
  measure : ∀ key value, (s.call (.measure k key value)).journals[k]? = some ⟨j.records, j.metrics ++ [(key, value)]⟩
  note : ∀ p, s.context? p = some k → ∀ r,
    (s.call (.note p r)).journals[k]? = some ⟨j.records ++ [r], j.metrics⟩
  noteMetric : ∀ p, s.context? p = some k → ∀ key value,
    (s.call (.noteMetric p key value)).journals[k]? = some ⟨j.records, j.metrics ++ [(key, value)]⟩
  success : ∀ p, s.context? p = some k → ∀ job product, (s.run p job).1 = .ok product →
    ∃ r : Report, r.record.pass = job.name ∧ r.record.final = product.final? ∧
      (s.call (.run p job)).journals[k]? = some ⟨j.records ++ [r.record], j.metrics ++ r.metrics⟩
  failure : ∀ p, s.context? p = some k → ∀ job e, (s.run p job).1 = .error e →
    (s.call (.run p job)).journals[k]? = some j
  elsewhere : ∀ x : Call, x.target? s ≠ some k → (s.call x).journals[k]? = some j

/-- A call with another target leaves a journal as it is. -/
theorem journal_call_of_ne (h : s.journals[k]? = some j) (hx : x.target? s ≠ some k) :
    (s.call x).journals[k]? = some j := by
  cases x with
  | newJournal => exact (List.getElem?_append_left (List.getElem?_eq_some_iff.mp h).1).trans h
  | newPass => exact h
  | attach p place =>
    rw [call, attach]
    split <;> exact h
  | record i | measure i => exact journal_writeTo_ne h (fun hi => hx (congrArg some hi)) _
  | note p | noteMetric p | run p => exact journal_report_ne h hx _

theorem writes (h : s.journals[k]? = some j) : s.Writes k j where
  record r := journal_writeTo h _
  measure key value := journal_writeTo h _
  note p hp r := journal_report h hp _
  noteMetric p hp key value := journal_report h hp _
  success p hp job product hproduct := by
    rw [fst_run h hp] at hproduct
    obtain ⟨r, hname, hfinal, hafter⟩ := job.reports.appended j product hproduct
    exact ⟨r, hname, hfinal, (journal_run h hp job).trans (by rw [hafter, Option.getD_some])⟩
  failure p hp job e he := by
    rw [fst_run h hp] at he
    exact (journal_run h hp job).trans (by rw [job.reports.failed (some j) e he, Option.getD_some])
  elsewhere x hx := journal_call_of_ne h hx

/-- A call leaves a journal with what it writes behind it. -/
theorem exists_newer_call (h : s.journals[k]? = some j) (x : Call) :
    ∃ newer, (s.call x).journals[k]? = some (j ++ newer) := by
  have hw := writes h
  -- only a call with this target can add anything, and then it adds what `writes` says
  by_cases hx : x.target? s = some k
  · cases x with
    | newJournal | newPass | attach => cases hx
    | record i r =>
      cases hx
      exact ⟨⟨[r], []⟩, by rw [Journal.append_record]; exact hw.record r⟩
    | measure i key value =>
      cases hx
      exact ⟨⟨[], [(key, value)]⟩, by rw [Journal.append_metric]; exact hw.measure key value⟩
    | note p r => exact ⟨⟨[r], []⟩, by rw [Journal.append_record]; exact hw.note p hx r⟩
    | noteMetric p key value =>
      exact ⟨⟨[], [(key, value)]⟩, by rw [Journal.append_metric]; exact hw.noteMetric p hx key value⟩
    | run p job =>
      cases hrun : (s.run p job).1 with
      | ok product =>
        obtain ⟨r, -, -, hafter⟩ := hw.success p hx job product hrun
        exact ⟨⟨[r.record], r.metrics⟩, hafter⟩
      | error e => exact ⟨.empty, by rw [Journal.append_empty]; exact hw.failure p hx job e hrun⟩
  · exact ⟨.empty, by rw [Journal.append_empty]; exact hw.elsewhere x hx⟩

/-! ## Whole runs -/

theorem exists_newer (h : s.journals[k]? = some j) (xs : List Call) :
    ∃ newer, (s.callAll xs).journals[k]? = some (j ++ newer) := by
  induction xs generalizing s j with
  | nil => exact ⟨.empty, by rw [Journal.append_empty]; exact h⟩
  | cons x xs ih =>
    -- what the other calls add stands behind what the first one added
    obtain ⟨first, hfirst⟩ := exists_newer_call h x
    obtain ⟨rest, hrest⟩ := ih hfirst
    exact ⟨first ++ rest, by rw [← Journal.append_assoc]; exact hrest⟩

/-- Whatever calls a program has made, each journal that it holds answers by its entries, and the next call writes
    behind them or not at all. A pass that is attached to it, or to none, stays so until it is attached anew. After any
    further calls the entries are the first ones of the journal, and what is newer answers first. -/
theorem journals_only_grow (xs : List Call) {k : Nat} {j : Journal} (h : (empty.callAll xs).journals[k]? = some j) :
    j.Answers ∧
    (empty.callAll xs).Writes k j ∧
    (∀ p < (empty.callAll xs).contexts.length, ∀ place, place = none ∨ place = some k → ∀ ys : List Call,
      (∀ y ∈ ys, ∀ other, y ≠ .attach p other) → (empty.callAll (xs ++ .attach p place :: ys)).context? p = place) ∧
    ∀ ys : List Call, ∃ newer, (empty.callAll (xs ++ ys)).journals[k]? = some (j ++ newer) ∧
      j.records <+: (j ++ newer).records ∧ j.metrics <+: (j ++ newer).metrics ∧ j.NewestFirst newer := by
  refine ⟨j.answers, writes h, fun p hp place hplace ys hys => ?_, fun ys => ?_⟩
  · have hthere : ∀ i ∈ place, i < (empty.callAll xs).journals.length := by
      rintro i rfl
      cases hplace.resolve_left (Option.some_ne_none i)
      exact (List.getElem?_eq_some_iff.mp h).1
    rw [callAll_append]
    exact (context?_callAll hys).trans (context?_attach hp hthere)
  · obtain ⟨newer, hnewer⟩ := exists_newer h ys
    rw [callAll_append]
    exact ⟨newer, hnewer, List.prefix_append _ _, List.prefix_append _ _, j.newestFirst newer⟩

/-- Two passes, one of them attached to the first of two journals. It places a circuit, routes it, fails to route it
    without SWAPs, and times another; in between the program writes a metric, and the other pass places the circuit. -/
def watched : List Call :=
  [.newJournal, .newJournal, .newPass, .newPass, .attach 0 (some 0),
    .run 0 (.placeLowest Routing.allMeet Routing.fourInARow),
    .run 0 (.route {} (some ⟨[7, 1, 2], by decide⟩) Routing.allMeet Routing.fourInARow),
    .measure 0 "swap_count" (-1),
    .run 1 (.placeLowest Routing.allMeet Routing.fourInARow),
    .run 0 (.route { swapFactor := .ofFloat 0 } none Routing.allMeet Routing.fourInARow),
    .run 0 (.schedule Scheduler.lateInWords Scheduler.pausing)]

/-- Three of the five runs are recorded. The last of them has no layout, and the final layout is that of the routing
    before it. -/
theorem journals_only_grow_watched : ∃ j, (empty.callAll watched).journals[0]? = some j ∧
    j.records.map (·.pass) = ["TrivialLayoutPass", "ShortestPathRouter", "TimingScheduler"] ∧
    j.metrics = [("swap_count", 4), ("routed_depth", 8), ("swap_count", -1), ("makespan", 1219)] ∧
    j.history "swap_count" = [4, -1] ∧ j.metric "swap_count" = some (-1) ∧
    j.finalLayout.map (·.placement) = some [7, 4, 1] ∧
    j.Answers ∧
    (empty.callAll watched).Writes 0 j ∧
    (∀ p < (empty.callAll watched).contexts.length, ∀ place, place = none ∨ place = some 0 → ∀ ys : List Call,
      (∀ y ∈ ys, ∀ other, y ≠ .attach p other) →
        (empty.callAll (watched ++ .attach p place :: ys)).context? p = place) ∧
    ∀ ys : List Call, ∃ newer, (empty.callAll (watched ++ ys)).journals[0]? = some (j ++ newer) ∧
      j.records <+: (j ++ newer).records ∧ j.metrics <+: (j ++ newer).metrics ∧ j.NewestFirst newer := by
  have hmap : ((empty.callAll watched).journals[0]?.map fun j =>
      (j.records.map (·.pass), j.metrics, j.finalLayout.map (·.placement))) =
      some (["TrivialLayoutPass", "ShortestPathRouter", "TimingScheduler"],
        [("swap_count", 4), ("routed_depth", 8), ("swap_count", -1), ("makespan", 1219)], some [7, 4, 1]) := by
    decide +kernel
  obtain ⟨j, hj, htells⟩ := Option.map_eq_some_iff.mp hmap
  obtain ⟨hrecords, hrest⟩ := Prod.mk.inj htells
  obtain ⟨hmetrics, hfinal⟩ := Prod.mk.inj hrest
  refine ⟨j, hj, hrecords, hmetrics, ?_, ?_, hfinal, journals_only_grow watched hj⟩
  · rw [Journal.history, hmetrics]
    rfl
  · rw [Journal.metric, hmetrics]
    rfl

end Session

end CircuitMapping
