/-
  CircuitMapping.Proofs.Timing.Untimed — circuits that cannot be timed, and the gate that is reported.

  Waits and barriers bring their own time. Any other gate needs an entry in the table, for its name on its qubits or for
  its name alone; without one it has no duration (`Untimed`, `durationOf_eq_error_iff`), and nothing else can go wrong
  in timing. Whether a gate can be timed does not depend on the gates before it, so the first one that cannot, in the
  order in which gates are visited, gives the error (`timeForward_eq_error_iff`). They are visited by layers, and those
  of one layer by positions, so it need not be the first one of the program.

  As late as possible times the circuit as soon as possible, too, before it times the reversed one. So the reversed
  circuit is timed only when every gate has a duration, and both policies report the same gate
  (`schedule_eq_error_iff`, `first_untimed_gate_is_reported`).
-/
import CircuitMapping.Proofs.Circuit.LongestChains
import CircuitMapping.Proofs.Timing.Orders

namespace CircuitMapping

open Success

theorem Durations.lookup_eq_none_iff {d : Durations} {g : Gate} : d.lookup g = none ↔
    (∀ t, ((g.op.name, g.qubits), t) ∉ d.overrides) ∧ ∀ t, (g.op.name, t) ∉ d.defaults := by
  have habsent : ∀ {α : Type} [BEq α] [LawfulBEq α] (k : α) (es : List (α × Nat)),
      es.lookup k = none ↔ ∀ t, (k, t) ∉ es := by
    intro α _ _ k es
    rw [List.lookup_eq_none_iff]
    constructor
    · intro h t ht
      simpa using h (k, t) ht
    · rintro h ⟨k', t⟩ ht
      simp only [bne_iff_ne, ne_eq]
      rintro rfl
      exact h t ht
  rw [← habsent, ← habsent, lookup]
  cases d.overrides.lookup (g.op.name, g.qubits) with
  | none => simp
  | some t => simp

namespace Scheduler

open Dependencies

variable {a : Arithmetic} {s : Scheduler a} {trailing : Bool} {c : Circuit} {e : Error}

/-! ## Gates without a duration -/

/-- A gate that is neither a wait nor a barrier and has no entry in the table. -/
structure Untimed (s : Scheduler a) (g : Gate) : Prop where
  not_wait : g.op ≠ .wait
  not_barrier : g.op ≠ .barrier
  no_override : ∀ t, ((g.op.name, g.qubits), t) ∉ s.durations.overrides
  no_default : ∀ t, (g.op.name, t) ∉ s.durations.defaults

theorem durationOf_eq_error_iff {g : Gate} :
    s.durationOf g = .error e ↔ s.Untimed g ∧ e = .unsupported (.timing g.op g.qubits.length g.text) := by
  unfold durationOf
  split
  · rename_i hwait
    exact iff_of_false (by simp) fun h => h.1.not_wait hwait
  · rename_i hbarrier
    exact iff_of_false (by simp) fun h => h.1.not_barrier hbarrier
  · rename_i hwait hbarrier
    cases ht : s.durations.lookup g with
    | some t =>
      refine iff_of_false (by simp) fun h => ?_
      rw [Durations.lookup_eq_none_iff.mpr ⟨h.1.no_override, h.1.no_default⟩] at ht
      cases ht
    | none =>
      obtain ⟨hoverride, hdefault⟩ := Durations.lookup_eq_none_iff.mp ht
      constructor
      · intro h
        cases h
        exact ⟨⟨hwait, hbarrier, hoverride, hdefault⟩, rfl⟩
      · rintro ⟨-, rfl⟩
        rfl

theorem timesAll_iff : s.TimesAll c ↔ ∀ g ∈ c.gates, ¬ s.Untimed g := by
  refine forall_congr' fun g => imp_congr_right fun _ => ?_
  unfold lasts
  cases hd : s.durationOf g with
  | ok k =>
    refine iff_of_true rfl fun hg => ?_
    cases hd.symm.trans (durationOf_eq_error_iff.mpr ⟨hg, rfl⟩)
  | error e => exact iff_of_false (by simp) (not_not_intro (durationOf_eq_error_iff.mp hd).1)

/-! ## The first one -/

/-- The error of a gate that cannot be timed. -/
def fault? (s : Scheduler a) (g : Gate) : Option Error :=
  match s.durationOf g with
  | .error e => some e
  | .ok _ => none

theorem fault?_eq_some {g : Gate} : s.fault? g = some e ↔ s.durationOf g = .error e := by
  unfold fault?
  cases s.durationOf g with
  | error e' => simp
  | ok k => simp

theorem timeNode_eq_error_iff {layer : Nat} {base : Int} {p : Progress} {n : Node} :
    s.timeNode trailing layer base p n = .error e ↔ s.fault? n.gate = some e := by
  rw [fault?_eq_some]
  unfold timeNode
  exact bind_ok_eq_error_iff

/-- The first gate without a duration, in the order of visits. -/
theorem timeForward_eq_error_iff :
    s.timeForward trailing c = .error e ↔ ((ofCircuit c).visits.findSome? fun v => s.fault? v.1.gate) = some e := by
  have hlayer : ∀ p (l : List Node × Nat) e, s.timeLayer trailing p l = .error e ↔
      ((l.1.map (·, l.2)).findSome? fun v => s.fault? v.1.gate) = some e := by
    intro p l e
    rw [List.findSome?_map]
    exact foldlM_eq_error_iff_findSome? (f := s.timeNode trailing l.2 p.ends) fun _ _ _ => timeNode_eq_error_iff
  rw [visits, findSome?_flatMap, ← foldlM_eq_error_iff_findSome? hlayer (s := .start)]
  exact bind_ok_eq_error_iff

/-- The gate `g` at position `i`, on the layer `l`, has no duration, and it is the first such gate by layer and
    position. -/
structure IsFirstUntimed (s : Scheduler a) (c : Circuit) (i l : Nat) (g : Gate) : Prop where
  gate : c.gates[i]? = some g
  layer : OnLayer c i l
  untimed : s.Untimed g
  first : ∀ j m h, c.gates[j]? = some h → OnLayer c j m → s.Untimed h → l < m ∨ l = m ∧ i ≤ j

theorem mem_visits_iff {i l : Nat} {g : Gate} :
    (∃ v ∈ (ofCircuit c).visits, v.1.gate = g ∧ v.1.id = i ∧ v.2 = l) ↔ c.gates[i]? = some g ∧ OnLayer c i l := by
  rw [onLayer_iff, ← mem_ranked, ← map_leveled, List.mem_map]
  simp only [(visits_perm _).mem_iff, Prod.mk.injEq, and_assoc]

theorem isFirstUntimed_of_timeForward (h : s.timeForward trailing c = .error e) :
    ∃ i l g, s.IsFirstUntimed c i l g ∧ e = .unsupported (.timing g.op g.qubits.length g.text) := by
  obtain ⟨vs, v, ws, hsplit, hv, hbefore⟩ := List.findSome?_eq_some_iff.mp (timeForward_eq_error_iff.mp h)
  obtain ⟨huntimed, he⟩ := durationOf_eq_error_iff.mp (fault?_eq_some.mp hv)
  have hmem : v ∈ (ofCircuit c).visits := by simp [hsplit]
  obtain ⟨hgate, hlayer⟩ := mem_visits_iff.mp ⟨v, hmem, rfl, rfl, rfl⟩
  refine ⟨v.1.id, v.2, v.1.gate, ⟨hgate, hlayer, huntimed, ?_⟩, he⟩
  intro j m g hg hm hu
  -- one that is visited before it has a duration, so this one is the same or comes later
  obtain ⟨w, hw, rfl, rfl, rfl⟩ := mem_visits_iff.mpr ⟨hg, hm⟩
  have hasc := visits_ascending c
  rw [hsplit] at hw hasc
  rcases List.mem_append.mp hw with hw | hw
  · have hnone := hbefore w hw
    rw [fault?_eq_some.mpr (durationOf_eq_error_iff.mpr ⟨hu, rfl⟩)] at hnone
    cases hnone
  · rcases List.mem_cons.mp hw with rfl | hw
    · exact .inr ⟨rfl, le_rfl⟩
    · have := (List.pairwise_cons.mp (List.pairwise_append.mp hasc).2.1).1 w hw
      omega

/-! ## Both policies -/

/-- Under either policy it is timing the circuit as soon as possible that fails. -/
theorem schedule_eq_error_iff : s.schedule c = .error e ↔ s.timeForward false c = .error e := by
  cases hf : s.timeForward false c with
  | ok ts =>
    have htimes : s.TimesAll c := timesAll_of_schedule (s := s.under .asSoonAsPossible) (bind_eq_ok.mpr ⟨ts, hf, rfl⟩)
    obtain ⟨r, hr⟩ := exists_schedule htimes
    simp [hr]
  | error e' =>
    have hr : s.schedule c = .error e' := by
      unfold schedule timeBackward
      cases s.policy with
      | asSoonAsPossible => simp only [hf]; rfl
      | asLateAsPossible => simp only [hf]; rfl
    rw [hr, Except.error.injEq, Except.error.injEq]

/-- Scheduling fails exactly if some gate is neither a wait nor a barrier and has no entry in the table of durations.
    The error names the first such gate by layer and position, and is the same under both policies. -/
theorem first_untimed_gate_is_reported {a : Arithmetic} (s : Scheduler a) (c : Circuit) :
    ((∃ e, s.schedule c = .error e) ↔ ∃ g ∈ c.gates, s.Untimed g) ∧
    ∀ e, s.schedule c = .error e →
      (∃ i l g, s.IsFirstUntimed c i l g ∧ e = .unsupported (.timing g.op g.qubits.length g.text)) ∧
      ∀ p, (s.under p).schedule c = .error e := by
  refine ⟨⟨?_, ?_⟩, ?_⟩
  · rintro ⟨e, he⟩
    obtain ⟨i, l, g, hg, -⟩ := isFirstUntimed_of_timeForward (schedule_eq_error_iff.mp he)
    exact ⟨g, List.mem_of_getElem? hg.gate, hg.untimed⟩
  · rintro ⟨g, hg, hu⟩
    cases hr : s.schedule c with
    | error e => exact ⟨e, rfl⟩
    | ok r => exact absurd hu (timesAll_iff.mp (timesAll_of_schedule hr) g hg)
  · intro e he
    have hf := schedule_eq_error_iff.mp he
    exact ⟨isFirstUntimed_of_timeForward hf, fun p => schedule_eq_error_iff (s := s.under p) |>.mpr hf⟩

/-- A gate without a duration behind another gate, and one more on a free qubit. -/
def untimedTwice : Circuit where
  width := 10
  entries := Circuit.number [⟨.cnot, [9, 4], [], by decide⟩, ⟨.s, [9], [], by decide⟩, ⟨.t, [0], [], by decide⟩]
  width_pos := by decide
  in_range := by decide

/-- The later one of the program is on the lower layer, and reported as late as possible, too. -/
theorem first_untimed_gate_is_reported_untimedTwice :
    lateInWords.schedule untimedTwice = .error (.unsupported (.timing .t 1 "T q[0]")) ∧
    (∃ i l g, lateInWords.IsFirstUntimed untimedTwice i l g ∧
      Error.unsupported (.timing .t 1 "T q[0]") = .unsupported (.timing g.op g.qubits.length g.text)) ∧
    (∀ p, (lateInWords.under p).schedule untimedTwice = .error (.unsupported (.timing .t 1 "T q[0]"))) ∧
    ∃ g ∈ untimedTwice.gates, lateInWords.Untimed g := by
  have he : lateInWords.schedule untimedTwice = .error (.unsupported (.timing .t 1 "T q[0]")) := by decide +kernel
  obtain ⟨hiff, hreport⟩ := first_untimed_gate_is_reported lateInWords untimedTwice
  obtain ⟨hfirst, hpolicies⟩ := hreport _ he
  exact ⟨he, hfirst, hpolicies, hiff.mp ⟨_, he⟩⟩

end Scheduler

end CircuitMapping
