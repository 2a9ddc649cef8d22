/-
  CircuitMapping.Proofs.Journal.Passes — what passes do to the journal that they report into.

  A pass that fails leaves the journal as it was, and one that succeeds appends one record under its name and then its
  metrics, which tell its outcome (`Reports`). This holds of every pass on every input.

  A placing pass with a journal moves the whole circuit to its layout for the record, a step that is not there without
  a journal and that could fail by itself. On a device whose nodes have successors among the words it does not: the
  register of the record reaches up to the highest node, and every gate of the circuit finds its qubits placed
  (`exists_placed`). So no pass tells whether it has a journal (`passes_are_atomic`).
-/
import CircuitMapping.Pipeline.Passes
import CircuitMapping.Proofs.Circuit.Register
import CircuitMapping.Proofs.Device.Extent
import CircuitMapping.Proofs.Placement.Requests
import CircuitMapping.Proofs.Placement.Search
import CircuitMapping.Proofs.Routing.Replay

namespace CircuitMapping

open Success

/-! ## Reports -/

section

variable {α β : Type} {name : String} {tells : α → Report → Prop}
  {pass : Option Journal → Except Error α × Option Journal}

/-- A pass that leaves its journal as it was when it fails, and when it succeeds appends one record under its name and
    then metrics, which tell its outcome. -/
structure Reports (name : String) (tells : α → Report → Prop)
    (pass : Option Journal → Except Error α × Option Journal) : Prop where
  failed : ∀ j e, (pass j).1 = .error e → (pass j).2 = j
  appended : ∀ j a, (pass (some j)).1 = .ok a → ∃ r : Report, r.record.pass = name ∧ tells a r ∧
    (pass (some j)).2 = some ⟨j.records ++ [r.record], j.metrics ++ r.metrics⟩

/-- A pass that reports, and whose outcome is the same with any journal and without. -/
structure Atomic (name : String) (tells : α → Report → Prop) (pass : Option Journal → Except Error α × Option Journal) :
    Prop extends Reports name tells pass where
  transparent : ∀ j, (pass j).1 = (pass none).1
  detached : (pass none).2 = none

theorem Report.appendTo_eq (r : Report) (j : Journal) :
    r.appendTo j = ⟨j.records ++ [r.record], j.metrics ++ r.metrics⟩ := by
  have measured : ∀ (ms : List (String × Int)) (j : Journal),
      ms.foldl (fun j m => j.measure m.1 m.2) j = ⟨j.records, j.metrics ++ ms⟩ := by
    intro ms
    induction ms with
    | nil => intro j; simp
    | cons m ms ih =>
      intro j
      rw [List.foldl_cons, ih]
      simp [Journal.measure]
  exact measured r.metrics (j.record r.record)

theorem reports_run {outcome : Except Error α} {report : α → Except Error Report}
    (h : ∀ a r, report a = .ok r → r.record.pass = name ∧ tells a r) :
    Reports name tells (Report.run outcome report) where
  failed j e he := by
    unfold Report.run at he ⊢
    cases outcome with
    | error e' => rfl
    | ok a =>
      cases j with
      | none => rfl
      | some j =>
        dsimp only at he ⊢
        cases hr : report a with
        | error e' => rfl
        | ok r =>
          rw [hr] at he
          cases he
  appended j a ha := by
    unfold Report.run at ha ⊢
    cases outcome with
    | error e => cases ha
    | ok a' =>
      dsimp only at ha ⊢
      cases hr : report a' with
      | error e =>
        rw [hr] at ha
        cases ha
      | ok r =>
        rw [hr] at ha
        cases ha
        obtain ⟨hname, htells⟩ := h a r hr
        exact ⟨r, hname, htells, congrArg some (r.appendTo_eq j)⟩

/-- A pass whose report can always be made is the same with a journal and without. -/
theorem atomic_run {outcome : Except Error α} {report : α → Except Error Report}
    (h : Reports name tells (Report.run outcome report)) (hmade : ∀ a, outcome = .ok a → ∃ r, report a = .ok r) :
    Atomic name tells (Report.run outcome report) where
  toReports := h
  transparent j := by
    unfold Report.run
    cases outcome with
    | error e => rfl
    | ok a =>
      cases j with
      | none => rfl
      | some j =>
        obtain ⟨r, hr⟩ := hmade a rfl
        simp only [hr]
  detached := by
    unfold Report.run
    cases outcome with
    | error e => rfl
    | ok a => rfl

/-- A pass that only reads its report off its outcome. -/
theorem atomic_run_pure {outcome : Except Error α} {report : α → Report} (h : ∀ a, (report a).record.pass = name) :
    Atomic name (fun a r => r = report a) (Report.run outcome fun a => return report a) := by
  refine atomic_run (reports_run fun a r hr => ?_) fun a _ => ⟨report a, rfl⟩
  cases pure_eq_ok.mp hr
  exact ⟨h a, rfl⟩

/-- Reading off the outcome changes nothing in a journal. -/
theorem Reports.map {tells' : β → Report → Prop} (h : Reports name tells pass) (f : α → β)
    (hf : ∀ a r, tells a r → tells' (f a) r) : Reports name tells' fun j => ((pass j).1.map f, (pass j).2) where
  failed j e he := by
    cases hx : (pass j).1 with
    | error e' => exact h.failed j e' hx
    | ok a =>
      simp only [hx] at he
      cases he
  appended j b hb := by
    cases hx : (pass (some j)).1 with
    | error e =>
      simp only [hx] at hb
      cases hb
    | ok a =>
      simp only [hx] at hb
      cases hb
      obtain ⟨r, hname, htells, hj⟩ := h.appended j a hx
      exact ⟨r, hname, hf a r htells, hj⟩

theorem Atomic.map {tells' : β → Report → Prop} (h : Atomic name tells pass) (f : α → β)
    (hf : ∀ a r, tells a r → tells' (f a) r) : Atomic name tells' fun j => ((pass j).1.map f, (pass j).2) where
  toReports := h.toReports.map f hf
  transparent j := congrArg (Except.map f) (h.transparent j)
  detached := h.detached

end

/-! ## The circuit moved to a layout -/

namespace Pass

variable {c : Circuit} {d : Device} {l : Layout}

theorem placed_eq_ok {name : String} {record : Journal.Record} (h : placed name c d l = .ok record) :
    record.pass = name ∧ record.initial = some l ∧ record.final = some l := by
  obtain ⟨_, -, h⟩ := bind_eq_ok.mp h
  obtain ⟨_, -, h⟩ := bind_eq_ok.mp h
  obtain ⟨_, -, h⟩ := bind_eq_ok.mp h
  cases pure_eq_ok.mp h
  exact ⟨rfl, rfl, rfl⟩

/-- A circuit moved to a layout that has a node for each of its qubits can be recorded. -/
theorem exists_placed (hd : d.InWords) (hsize : c.width ≤ l.size) (hl : l.OnDevice d) (name : String) :
    ∃ record, placed name c d l = .ok record := by
  have hw : c.width ≤ d.nodes.length := hsize.trans (l.nodup.subperm hl).length_le
  obtain ⟨last, hlast⟩ := Device.exists_maxNode (List.ne_nil_of_length_pos (Nat.lt_of_lt_of_le c.width_pos hw))
  have hreg := Routed.registerSize_of_maxNode hd hl hw hlast
  obtain ⟨start, hstart⟩ := Circuit.exists_empty (Nat.succ_pos last)
  -- the register has room for all nodes, before and after each gate
  have hroom : ∀ q ∈ d.nodes, q < start.width := by
    intro q hq
    rw [(Circuit.empty_eq_ok hstart).1]
    exact Nat.lt_succ_of_le ((Device.maxNode_eq_ok hlast).2 q hq)
  have hadd : ∀ out : Circuit, ∀ g ∈ c.gates, (∀ q ∈ d.nodes, q < out.width) →
      ∃ out', (do out.add (← l.place g)) = .ok out' ∧ ∀ q ∈ d.nodes, q < out'.width := by
    intro out g hg hout
    have hqubits : ∀ q ∈ g.qubits, q < l.size := fun q hq => (c.forall_mem_gates g hg q hq).trans_le hsize
    obtain ⟨h, hh⟩ := Layout.exists_place hqubits
    obtain ⟨out', hout'⟩ := Circuit.exists_add fun q hq =>
      hout q ((Layout.places_of_place hh).onDevice hl q hq)
    refine ⟨out', bind_eq_ok.mpr ⟨h, hh, hout'⟩, ?_⟩
    rwa [(Circuit.add_eq_ok hout').2.1]
  obtain ⟨moved, hmoved, -⟩ := exists_foldlM hadd hroom
  exact ⟨_, bind_eq_ok.mpr ⟨_, hreg, bind_eq_ok.mpr ⟨start, hstart, bind_eq_ok.mpr ⟨moved, hmoved, rfl⟩⟩⟩⟩

/-! ## Placing -/

/-- A report on a layout: its record has the layout before and after it, and its metrics are under the given keys. -/
structure TellsLayout (keys : List String) (l : Layout) (r : Report) : Prop where
  initial : r.record.initial = some l
  final : r.record.final = some l
  keys : ∀ m ∈ r.metrics, m.1 ∈ keys

section

variable {α : Type} {keys : List String} (outcome : Except Error α) (name : String) (layout : α → Layout)
  (metrics : α → List (String × Int))

theorem reports_placing (c : Circuit) (d : Device) (hkeys : ∀ a, ∀ m ∈ metrics a, m.1 ∈ keys) :
    Reports name (fun a => TellsLayout keys (layout a))
      (Report.run outcome fun a => do return ⟨← placed name c d (layout a), metrics a⟩) := by
  refine reports_run fun a r hr => ?_
  obtain ⟨record, hrecord, hr⟩ := bind_eq_ok.mp hr
  cases pure_eq_ok.mp hr
  obtain ⟨hname, hinitial, hfinal⟩ := placed_eq_ok hrecord
  exact ⟨hname, hinitial, hfinal, hkeys a⟩

theorem atomic_placing (hd : d.InWords) (hkeys : ∀ a, ∀ m ∈ metrics a, m.1 ∈ keys)
    (hplaced : ∀ a, outcome = .ok a → c.width ≤ (layout a).size ∧ (layout a).OnDevice d) :
    Atomic name (fun a => TellsLayout keys (layout a))
      (Report.run outcome fun a => do return ⟨← placed name c d (layout a), metrics a⟩) := by
  refine atomic_run (reports_placing outcome name layout metrics c d hkeys) ?_
  intro a ha
  obtain ⟨hsize, hl⟩ := hplaced a ha
  obtain ⟨record, hrecord⟩ := exists_placed hd hsize hl name
  exact ⟨_, bind_eq_ok.mpr ⟨record, hrecord, rfl⟩⟩

end

/-- The metrics of a search. -/
def simulated (r : Sabre.Outcome) : List (String × Int) :=
  r.swaps.toList.map fun (n : Nat) => ("layout_simulated_swaps", (n : Int))

theorem key_of_mem_simulated {r : Sabre.Outcome} : ∀ m ∈ simulated r, m.1 ∈ ["layout_simulated_swaps"] := by
  intro m hm
  obtain ⟨n, -, rfl⟩ := List.mem_map.mp hm
  exact List.mem_singleton_self _

theorem reports_placeLowest (c : Circuit) (d : Device) :
    Reports "TrivialLayoutPass" (TellsLayout []) (placeLowest c d) :=
  reports_placing (Placement.lowest c d) "TrivialLayoutPass" id (fun _ => []) c d fun _ => List.forall_mem_nil _

theorem reports_placeSabre (o : Sabre.Options) (c : Circuit) (d : Device) :
    Reports "SabreLayoutPass" (TellsLayout ["layout_simulated_swaps"]) (placeSabre o c d) := by
  have h := reports_placing (Sabre.assign o c d) "SabreLayoutPass" (·.layout) simulated c d
    fun _ => key_of_mem_simulated
  exact h.map (·.layout) fun _ _ htells => htells

theorem atomic_placeLowest (hd : d.InWords) (c : Circuit) :
    Atomic "TrivialLayoutPass" (TellsLayout []) (placeLowest c d) := by
  have hplaced : ∀ l, Placement.lowest c d = .ok l → c.width ≤ l.size ∧ l.OnDevice d := by
    intro l hl
    obtain ⟨_, -, hl⟩ := bind_eq_ok.mp hl
    obtain ⟨hsize, hon⟩ := Layout.fits_of_lowest hl
    exact ⟨hsize.ge, hon⟩
  exact atomic_placing (Placement.lowest c d) "TrivialLayoutPass" id (fun _ => []) hd (fun _ => List.forall_mem_nil _)
    hplaced

theorem atomic_placeSabre (hd : d.InWords) (o : Sabre.Options) (c : Circuit) :
    Atomic "SabreLayoutPass" (TellsLayout ["layout_simulated_swaps"]) (placeSabre o c d) := by
  have hplaced : ∀ r, Sabre.assign o c d = .ok r → c.width ≤ r.layout.size ∧ r.layout.OnDevice d := by
    intro r hr
    obtain ⟨hsize, hon⟩ := Sabre.fits_of_assignWith hr
    exact ⟨hsize.ge, hon⟩
  have h := atomic_placing (Sabre.assign o c d) "SabreLayoutPass" (·.layout) simulated hd
    (fun _ => key_of_mem_simulated) hplaced
  exact h.map (·.layout) fun _ _ htells => htells

theorem atomic_placeRequested (hd : d.InWords) (request : Request) (c : Circuit) :
    Atomic "CustomLayoutPass" (TellsLayout []) (placeRequested request c d) := by
  have hplaced : ∀ l, request.layout c d = .ok l → c.width ≤ l.size ∧ l.OnDevice d := fun l hl =>
    ⟨Request.width_le_size hl, (Request.layout_eq_ok hl).2.2⟩
  exact atomic_placing (request.layout c d) "CustomLayoutPass" id (fun _ => []) hd (fun _ => List.forall_mem_nil _)
    hplaced

/-! ## Routing and timing -/

theorem atomic_route (o : Routing.Options) (initial : Option Layout) (c : Circuit) (d : Device) :
    Atomic "ShortestPathRouter" (fun r report => report = routed "ShortestPathRouter" r) (route o initial c d) :=
  atomic_run_pure fun _ => rfl

theorem atomic_routePinned (o : Routing.Options) (request : Request) (c : Circuit) (d : Device) :
    Atomic "CustomLayoutPass" (fun r report => report = routed "CustomLayoutPass" r) (routePinned o request c d) :=
  atomic_run_pure fun _ => rfl

theorem atomic_schedule (s : Scheduler .words) (c : Circuit) :
    Atomic "TimingScheduler" (fun t report => report = ⟨⟨"TimingScheduler", c, none, none⟩, [("makespan", t.makespan)]⟩)
      (schedule s c) :=
  atomic_run_pure fun _ => rfl

/-- On a device whose nodes have successors among the words, every pass leaves its journal as it was when it fails,
    appends one record under its name and then its metrics when it succeeds, and has the same outcome with any journal
    and without. -/
theorem passes_are_atomic {d : Device} (hd : d.InWords) (c : Circuit) :
    Atomic "TrivialLayoutPass" (TellsLayout []) (placeLowest c d) ∧
    (∀ o, Atomic "SabreLayoutPass" (TellsLayout ["layout_simulated_swaps"]) (placeSabre o c d)) ∧
    (∀ request, Atomic "CustomLayoutPass" (TellsLayout []) (placeRequested request c d)) ∧
    (∀ o request, Atomic "CustomLayoutPass" (fun r report => report = routed "CustomLayoutPass" r)
      (routePinned o request c d)) ∧
    (∀ o initial, Atomic "ShortestPathRouter" (fun r report => report = routed "ShortestPathRouter" r)
      (route o initial c d)) ∧
    ∀ s, Atomic "TimingScheduler"
      (fun t report => report = ⟨⟨"TimingScheduler", c, none, none⟩, [("makespan", t.makespan)]⟩) (schedule s c) :=
  ⟨atomic_placeLowest hd c, fun o => atomic_placeSabre hd o c, fun request => atomic_placeRequested hd request c,
    fun o request => atomic_routePinned o request c d, fun o initial => atomic_route o initial c d,
    fun s => atomic_schedule s c⟩

/-- Placing three qubits that all meet leaves one record. -/
theorem passes_are_atomic_allMeet : Routing.fourInARow.InWords ∧
    ((placeLowest Routing.allMeet Routing.fourInARow (some .empty)).2.map fun j => j.records.map (·.pass)) =
      some ["TrivialLayoutPass"] ∧
    Atomic "TrivialLayoutPass" (TellsLayout []) (placeLowest Routing.allMeet Routing.fourInARow) ∧
    (∀ o, Atomic "SabreLayoutPass" (TellsLayout ["layout_simulated_swaps"])
      (placeSabre o Routing.allMeet Routing.fourInARow)) ∧
    (∀ request, Atomic "CustomLayoutPass" (TellsLayout [])
      (placeRequested request Routing.allMeet Routing.fourInARow)) ∧
    (∀ o request, Atomic "CustomLayoutPass" (fun r report => report = routed "CustomLayoutPass" r)
      (routePinned o request Routing.allMeet Routing.fourInARow)) ∧
    (∀ o initial, Atomic "ShortestPathRouter" (fun r report => report = routed "ShortestPathRouter" r)
      (route o initial Routing.allMeet Routing.fourInARow)) ∧
    ∀ s, Atomic "TimingScheduler"
      (fun t report => report = ⟨⟨"TimingScheduler", Routing.allMeet, none, none⟩, [("makespan", t.makespan)]⟩)
      (schedule s Routing.allMeet) := by
  have hd : Routing.fourInARow.InWords := by unfold Device.InWords; decide
  exact ⟨hd, by decide +kernel, passes_are_atomic hd Routing.allMeet⟩

/-- On the last word the register of the record wraps around, and only a pass with a journal fails. -/
example :
    let c : Circuit := ⟨1, Circuit.number [⟨.x, [0], [], by decide⟩], by decide, by decide⟩
    let d : Device := ⟨[18446744073709551615], [], by decide, by decide, by decide⟩
    (placeLowest c d none).1.toOption.isSome = true ∧ (placeLowest c d (some .empty)).1.toOption = none := by
  decide +kernel

end Pass

end CircuitMapping
