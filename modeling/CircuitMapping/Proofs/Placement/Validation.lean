/-
  CircuitMapping.Proofs.Placement.Validation — which requests are accepted, and what is reported on the others.

  A request fits a circuit and a device when its keys are the logical qubits of the circuit, no two of them have the
  same value, and all values are nodes of the device (`Fits`). One that does not fit has a first fault: in its keys, in
  values that repeat, or in values that are no nodes. The error is of that fault and lists the qubits that are to blame
  for it, all of them, ascending (`Faulty`). There is no third case (`layout_cases`).

  Only the keys have to be compared with the width of the circuit. Distinct nodes for all logical qubits are enough
  nodes, and as the values stand in the order of the keys, the value of key `i` is at position `i` of the layout.

  Placing a request and routing on it refuse the same requests with the same error, and what routing refuses behind the
  check of the request is not a placement (`request_check_is_exact`).
-/
import CircuitMapping.Proofs.Journal.Passes
import CircuitMapping.Proofs.Routing.Restored
import Mathlib.Data.List.NodupEquivFin

namespace CircuitMapping

open Success

theorem Report.fst_run_none {α : Type} (outcome : Except Error α) (report : α → Except Error Report) :
    (Report.run outcome report none).1 = outcome := by
  unfold Report.run
  cases outcome with
  | error e => rfl
  | ok a => rfl

namespace Request

variable {r : Request} {c : Circuit} {d : Device}

/-! ## Faults of a request -/

/-- The keys are the logical qubits of the circuit. -/
def Covers (r : Request) (c : Circuit) : Prop := ∀ i, i ∈ r.keys ↔ i < c.width

/-- No two logical qubits have the same physical one. -/
def IsDistinct (r : Request) : Prop := ∀ i j p : Nat, (i, p) ∈ r → (j, p) ∈ r → i = j

/-- A request for the circuit on the device. -/
structure Fits (r : Request) (c : Circuit) (d : Device) : Prop where
  covers : r.Covers c
  distinct : r.IsDistinct
  nodes : ∀ p ∈ r.values, p ∈ d.nodes

/-- The report on a request that does not fit: its first fault, with all qubits that are to blame, ascending. -/
inductive Faulty (r : Request) (c : Circuit) (d : Device) : PlacementError → Prop
  | keys {missing extra : List Nat} : ¬ r.Covers c →
      missing.Pairwise (· < ·) → (∀ i, i ∈ missing ↔ i < c.width ∧ i ∉ r.keys) →
      extra.Pairwise (· < ·) → (∀ i, i ∈ extra ↔ i ∈ r.keys ∧ c.width ≤ i) →
      Faulty r c d (.requestKeys missing extra)
  | repeats {ps : List Nat} : r.Covers c → ¬ r.IsDistinct →
      ps.Pairwise (· < ·) → (∀ p, p ∈ ps ↔ ∃ i j : Nat, i ≠ j ∧ (i, p) ∈ r ∧ (j, p) ∈ r) →
      Faulty r c d (.requestRepeats ps)
  | unknown {ps : List Nat} : r.Covers c → r.IsDistinct → (¬ ∀ p ∈ r.values, p ∈ d.nodes) →
      ps.Pairwise (· < ·) → (∀ p, p ∈ ps ↔ p ∈ r.values ∧ p ∉ d.nodes) →
      Faulty r c d (.requestUnknown ps)

/-! ## The lists of a report -/

theorem mem_missing {n i : Nat} : i ∈ r.missing n ↔ i < n ∧ i ∉ r.keys := by
  simp [missing]

theorem mem_extra {n i : Nat} : i ∈ r.extra n ↔ i ∈ r.keys ∧ n ≤ i := by
  simp [extra]

theorem mem_unknown {p : Nat} : p ∈ r.unknown d ↔ p ∈ r.values ∧ p ∉ d.nodes := by
  rw [unknown, Ascending.mem_ofList]
  simp

/-- A value that is counted twice belongs to two keys. -/
theorem mem_repeated (hr : r.keys.Pairwise (· < ·)) {p : Nat} :
    p ∈ Layout.repeated r.values ↔ ∃ i j : Nat, i ≠ j ∧ (i, p) ∈ r ∧ (j, p) ∈ r := by
  have hkey : ∀ m n (hn : n < r.length) (hmn : m < n), r[m].1 < r[n].1 := fun m n hn hmn =>
    List.pairwise_iff_getElem.mp (List.pairwise_map.mp hr) m n (by omega) hn hmn
  rw [Layout.mem_repeated, ← Nat.succ_le_iff, ← List.duplicate_iff_two_le_count, List.duplicate_iff_exists_distinct_get]
  simp only [values, List.get_eq_getElem, List.getElem_map]
  constructor
  · rintro ⟨⟨m, hm⟩, ⟨n, hn⟩, hmn, hpm, hpn⟩
    rw [List.length_map] at hm hn
    refine ⟨r[m].1, r[n].1, (hkey m n hn hmn).ne, ?_, ?_⟩
    · rw [hpm]
      exact List.getElem_mem hm
    · rw [hpn]
      exact List.getElem_mem hn
  · rintro ⟨i, j, hne, hi, hj⟩
    obtain ⟨m, hm, hmi⟩ := List.mem_iff_getElem.mp hi
    obtain ⟨n, hn, hnj⟩ := List.mem_iff_getElem.mp hj
    have hmn : m ≠ n := by
      rintro rfl
      exact hne (congrArg Prod.fst (hmi.symm.trans hnj))
    rcases Nat.lt_or_gt_of_ne hmn with hlt | hgt
    · exact ⟨⟨m, by simpa using hm⟩, ⟨n, by simpa using hn⟩, hlt, by simp [hmi], by simp [hnj]⟩
    · exact ⟨⟨n, by simpa using hn⟩, ⟨m, by simpa using hm⟩, hgt, by simp [hnj], by simp [hmi]⟩

/-! ## Accepted or refused -/

theorem covers_iff : r.Covers c ↔ r.missing c.width = [] ∧ r.extra c.width = [] := by
  rw [List.eq_nil_iff_forall_not_mem, List.eq_nil_iff_forall_not_mem]
  simp only [mem_missing, mem_extra]
  constructor
  · intro h
    exact ⟨fun i hi => hi.2 ((h i).mpr hi.1), fun i hi => absurd ((h i).mp hi.1) (by omega)⟩
  · rintro ⟨hmissing, hextra⟩ i
    constructor
    · intro hi
      by_contra hge
      exact hextra i ⟨hi, by omega⟩
    · intro hi
      by_contra hnot
      exact hmissing i ⟨hi, hnot⟩

theorem isDistinct_iff (hr : r.keys.Pairwise (· < ·)) : r.IsDistinct ↔ Layout.repeated r.values = [] := by
  rw [List.eq_nil_iff_forall_not_mem]
  simp only [mem_repeated hr]
  constructor
  · rintro h p ⟨i, j, hne, hi, hj⟩
    exact hne (h i j p hi hj)
  · intro h i j p hi hj
    by_contra hne
    exact h p ⟨i, j, hne, hi, hj⟩

theorem nodup_values (hr : r.keys.Pairwise (· < ·)) (h : r.IsDistinct) : r.values.Nodup := by
  refine List.pairwise_map.mpr ((List.pairwise_map.mp hr).imp_of_mem ?_)
  intro e f he hf hlt heq
  have := h e.1 f.1 f.2 (heq ▸ he) hf
  omega

/-- A request fits and is laid out, or it does not fit and is reported. -/
theorem layout_cases (hr : r.keys.Pairwise (· < ·)) (hne : d.nodes ≠ []) (c : Circuit) :
    (r.Fits c d ∧ ∃ l, r.layout c d = .ok l) ∨
    ¬ r.Fits c d ∧ ∃ e, r.Faulty c d e ∧ r.layout c d = .error (.placement e) := by
  have hempty : ¬ d.isEmpty = true := by simpa [Device.isEmpty] using hne
  by_cases hcovers : r.Covers c
  case neg =>
    refine .inr ⟨fun h => hcovers h.covers, _,
      .keys hcovers (List.pairwise_lt_range.filter _) (fun i => mem_missing) (hr.filter _) fun i => mem_extra, ?_⟩
    unfold layout
    refine guard_eq_error.mpr (.inr ⟨hempty, guard_eq_error.mpr (.inl ⟨?_, rfl⟩)⟩)
    rw [covers_iff] at hcovers
    simpa [← not_and_or] using hcovers
  have hkeys := covers_iff.mp hcovers
  by_cases hdistinct : r.IsDistinct
  case neg =>
    refine .inr ⟨fun h => hdistinct h.distinct, _,
      .repeats hcovers hdistinct (Ascending.ofList_ascending _) fun p => mem_repeated hr, ?_⟩
    unfold layout
    refine guard_eq_error.mpr (.inr ⟨hempty, guard_eq_error.mpr (.inr ⟨by simp [hkeys], ?_⟩)⟩)
    refine guard_eq_error.mpr (.inl ⟨?_, rfl⟩)
    rw [isDistinct_iff hr] at hdistinct
    simpa using hdistinct
  have hrepeated := (isDistinct_iff hr).mp hdistinct
  by_cases hnodes : ∀ p ∈ r.values, p ∈ d.nodes
  · obtain ⟨l, hl, -⟩ := exists_layout (keys_eq_range hr hcovers) (nodup_values hr hdistinct) hnodes
    exact .inl ⟨⟨hcovers, hdistinct, hnodes⟩, l, hl⟩
  · refine .inr ⟨fun h => hnodes h.nodes, _,
      .unknown hcovers hdistinct hnodes (Ascending.ofList_ascending _) fun p => mem_unknown, ?_⟩
    unfold layout
    refine guard_eq_error.mpr (.inr ⟨hempty, guard_eq_error.mpr (.inr ⟨by simp [hkeys], ?_⟩)⟩)
    refine guard_eq_error.mpr (.inr ⟨by simp [hrepeated], guard_eq_error.mpr (.inl ⟨?_, rfl⟩)⟩)
    push Not at hnodes
    obtain ⟨p, hp, hnot⟩ := hnodes
    have hmem : p ∈ r.unknown d := mem_unknown.mpr ⟨hp, hnot⟩
    simpa using List.ne_nil_of_mem hmem

/-! ## Placing and routing -/

theorem fst_placeRequested (hd : d.InWords) (r : Request) (c : Circuit) (journal : Option Journal) :
    (Pass.placeRequested r c d journal).1 = r.layout c d :=
  ((Pass.atomic_placeRequested hd r c).transparent journal).trans (Report.fst_run_none ..)

theorem fst_routePinned (o : Routing.Options) (r : Request) (c : Circuit) (d : Device) (journal : Option Journal) :
    (Pass.routePinned o r c d journal).1 = Routing.routePinned o r c d :=
  ((Pass.atomic_routePinned o r c d).transparent journal).trans (Report.fst_run_none ..)

theorem routePinned_of_layout_eq_error {e : Error} (h : r.layout c d = .error e) (o : Routing.Options) :
    Routing.routePinned o r c d = .error e :=
  bind_eq_error.mpr (.inl h)

/-- What routing on an accepted request refuses is not the request. -/
theorem routePinned_ne_placement (hr : r.keys.Pairwise (· < ·)) (hd : d.InWords) {l : Layout}
    (h : r.layout c d = .ok l) (o : Routing.Options) (e : PlacementError) :
    Routing.routePinned o r c d ≠ .error (.placement e) := by
  intro herr
  rcases Routing.routePinnedWith_eq_error_of_layout hr hd h herr with ⟨a, ha⟩ | ⟨a, ha⟩ | ⟨limit, used, g, -, hg⟩
  · cases ha
  · cases ha
  · cases hg

/-- A request is accepted, for placing and for routing, exactly if it fits the circuit and the device. Then there are
    nodes enough, its values make a layout, and that has every key on its value. Otherwise the error is of the first
    fault of the request, with all qubits that are to blame for it, ascending. -/
theorem request_check_is_exact {r : Request} {d : Device} (hr : r.keys.Pairwise (· < ·)) (hne : d.nodes ≠ [])
    (hd : d.InWords) (c : Circuit) :
    (∀ journal, (∃ l, (Pass.placeRequested r c d journal).1 = .ok l) ↔ r.Fits c d) ∧
    (∀ o journal, (∀ e, (Pass.routePinned o r c d journal).1 ≠ .error (.placement e)) ↔ r.Fits c d) ∧
    (r.Fits c d → c.width ≤ d.nodes.length ∧
      ∃ l, Layout.ofList r.values = .ok l ∧ l.size = c.width ∧ (∀ i p, (i, p) ∈ r ↔ l.physical i = .ok p) ∧
        (∀ journal, (Pass.placeRequested r c d journal).1 = .ok l) ∧
        ∀ o journal routed, (Pass.routePinned o r c d journal).1 = .ok routed → routed.initial = l) ∧
    (¬ r.Fits c d → ∃ e, r.Faulty c d e ∧
      (∀ journal, (Pass.placeRequested r c d journal).1 = .error (.placement e)) ∧
      ∀ o journal, (Pass.routePinned o r c d journal).1 = .error (.placement e)) := by
  simp only [fst_placeRequested hd, fst_routePinned, forall_const]
  rcases layout_cases hr hne c with ⟨hfits, l, hl⟩ | ⟨hnot, e, he, herr⟩
  · refine ⟨iff_of_true ⟨l, hl⟩ hfits, fun o => iff_of_true (routePinned_ne_placement hr hd hl o) hfits, ?_,
      fun h => absurd hfits h⟩
    obtain ⟨-, hp, hon⟩ := layout_eq_ok hl
    have hsize := size_layout hr hl
    have hwidth : c.width ≤ d.nodes.length := hsize ▸ Layout.size_le_of_onDevice hon
    have hlist : Layout.ofList r.values = .ok l := by
      rw [← hp]
      exact dif_pos l.nodup
    refine fun _ => ⟨hwidth, l, hlist, hsize, ?_, hl, ?_⟩
    · intro i p
      rw [Layout.physical_eq_ok, mem_iff_of_layout hr hl]
    · intro o routed hrouted
      obtain ⟨hinitial, -⟩ := Routing.routePinnedWith_spec hrouted
      exact Except.ok.inj (hinitial.symm.trans hl)
  · have hrouted := routePinned_of_layout_eq_error herr
    refine ⟨iff_of_false ?_ hnot, fun o => iff_of_false (fun h => h e (hrouted o)) hnot, fun h => absurd h hnot,
      fun _ => ⟨e, he, herr, hrouted⟩⟩
    rintro ⟨l, hl⟩
    cases herr.symm.trans hl

/-- Two logical qubits on one physical qubit, which is not a node of the device either. -/
def sharingStranger : Request := ofEntries [(2, 9), (0, 1), (1, 9)]

/-- Three nodes of a row, against its order. -/
def againstTheRow : Request := ofEntries [(2, 1), (0, 7), (1, 4)]

/-- Of two faults the first is reported, and its qubit once. A request without a fault becomes the layout. -/
theorem request_check_is_exact_sharingStranger :
    sharingStranger.keys.Pairwise (· < ·) ∧ againstTheRow.keys.Pairwise (· < ·) ∧
    Routing.fourInARow.nodes ≠ [] ∧ Routing.fourInARow.InWords ∧
    (¬ sharingStranger.Fits Routing.allMeet Routing.fourInARow ∧
      sharingStranger.Faulty Routing.allMeet Routing.fourInARow (.requestRepeats [9]) ∧
      (∀ journal, (Pass.placeRequested sharingStranger Routing.allMeet Routing.fourInARow journal).1 =
        .error (.placement (.requestRepeats [9]))) ∧
      ∀ o journal, (Pass.routePinned o sharingStranger Routing.allMeet Routing.fourInARow journal).1 =
        .error (.placement (.requestRepeats [9]))) ∧
    againstTheRow.Fits Routing.allMeet Routing.fourInARow ∧
    ∃ l, l.placement = [7, 4, 1] ∧
      (∀ journal, (Pass.placeRequested againstTheRow Routing.allMeet Routing.fourInARow journal).1 = .ok l) ∧
      ∀ o journal routed, (Pass.routePinned o againstTheRow Routing.allMeet Routing.fourInARow journal).1 = .ok routed →
        routed.initial = l := by
  have hr : sharingStranger.keys.Pairwise (· < ·) := keys_ofEntries_ascending _
  have hr' : againstTheRow.keys.Pairwise (· < ·) := keys_ofEntries_ascending _
  have hne : Routing.fourInARow.nodes ≠ [] := by decide
  have hd : Routing.fourInARow.InWords := by unfold Device.InWords; decide
  refine ⟨hr, hr', hne, hd, ?refused, ?accepted⟩
  case refused =>
    have hnot : ¬ sharingStranger.Fits Routing.allMeet Routing.fourInARow := fun h =>
      absurd (h.distinct 1 2 9 (by decide) (by decide)) (by decide)
    obtain ⟨-, -, -, hrefused⟩ := request_check_is_exact hr hne hd Routing.allMeet
    obtain ⟨e, he, hplaced, hrouted⟩ := hrefused hnot
    have hreport : (Pass.placeRequested sharingStranger Routing.allMeet Routing.fourInARow none).1 =
        .error (.placement (.requestRepeats [9])) := by decide +kernel
    cases (hplaced none).symm.trans hreport
    exact ⟨hnot, he, hplaced, hrouted⟩
  case accepted =>
    obtain ⟨hfits, -, haccepted, -⟩ := request_check_is_exact hr' hne hd Routing.allMeet
    obtain ⟨l, hl, hplacement⟩ := exists_ok_of_map (f := Layout.placement) (b := [7, 4, 1])
      (x := (Pass.placeRequested againstTheRow Routing.allMeet Routing.fourInARow none).1) (by decide +kernel)
    have hfit := (hfits none).mp ⟨l, hl⟩
    obtain ⟨-, l', -, -, -, hplaced, hrouted⟩ := haccepted hfit
    cases (hplaced none).symm.trans hl
    exact ⟨hfit, l, hplacement, hplaced, hrouted⟩

end Request

end CircuitMapping
