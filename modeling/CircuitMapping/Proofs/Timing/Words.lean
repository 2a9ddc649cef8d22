/-
  CircuitMapping.Proofs.Timing.Words — times in signed 64-bit words.

  Every sum and difference of times is held in a word, so all times of a schedule are words (`isWord_of_schedule`). They
  are the integers that they stand for as long as nothing is lost. The end of all that has been timed is paid for by the
  gates timed so far, so no sum on the way to the times of the next gate is more than their work and its own
  (`timeNode_eq_exact`). Where the work of the whole circuit is a word, no sum leaves the words, and the schedule is the
  one with times as integers (`schedule_eq_exact`).
-/
import CircuitMapping.Proofs.Timing.Work

namespace CircuitMapping

open Success

/-- An integer that a signed 64-bit word holds. -/
structure IsWord (t : Int) : Prop where
  min_le : Int64.minValue.toInt ≤ t
  le_max : t ≤ Int64.maxValue.toInt

theorem isWord_hold (t : Int) : IsWord (Arithmetic.words.hold t) := ⟨Int64.minValue_le_toInt _, Int64.toInt_le _⟩

theorem isWord_zero : IsWord 0 := ⟨by decide, by decide⟩

theorem IsWord.max {t u : Int} (ht : IsWord t) (hu : IsWord u) : IsWord (max t u) := by
  rcases max_choice t u with he | he
  · rwa [he]
  · rwa [he]

theorem IsWord.foldl_max {ι : Type} {f : ι → Int} {xs : List ι} {t : Int} (ht : IsWord t)
    (h : ∀ x ∈ xs, IsWord (f x)) : IsWord (xs.foldl (fun m x => Max.max m (f x)) t) := by
  rcases foldl_max_eq_or_mem f xs t with he | ⟨x, hx, he⟩
  · rwa [he]
  · rw [he]
    exact h x hx

/-- Nothing is lost of a time within a total that is a word. -/
theorem IsWithin.hold_eq {total : Nat} {t : Int} (h : IsWithin total t) (htotal : total ≤ Int64.maxValue.toInt)
    (a : Arithmetic) : a.hold t = t :=
  a.hold_of_nonneg h.nonneg (h.le.trans htotal)

namespace Scheduler

open Dependencies

variable {a : Arithmetic} {s : Scheduler a} {trailing : Bool} {c : Circuit} {ts : List TimedGate}

/-! ## Times as integers -/

/-- The same scheduler in another arithmetic. -/
def holding (s : Scheduler a) (b : Arithmetic) : Scheduler b := { s with }

@[simp] theorem durationOf_holding (s : Scheduler a) (b : Arithmetic) (g : Gate) :
    (s.holding b).durationOf g = s.durationOf g := rfl

@[simp] theorem delayOf_holding (s : Scheduler a) (b : Arithmetic) (g : Gate) :
    (s.holding b).delayOf g = s.delayOf g := rfl

@[simp] theorem load_holding (s : Scheduler a) (b : Arithmetic) (gs : List Gate) :
    (s.holding b).load gs = s.load gs := by
  induction gs with
  | nil => rfl
  | cons g gs ih => exact congrArg (s.span g + ·) ih

@[simp] theorem work_holding (s : Scheduler a) (b : Arithmetic) (c : Circuit) : (s.holding b).work c = s.work c :=
  s.load_holding b c.gates

/-- As late as possible, on a clock of four units, with delays, in words. -/
def lateInWords : Scheduler .words := lateOnClock.holding .words

/-- The work of a circuit is a word. -/
def Fits (s : Scheduler a) (c : Circuit) : Prop := (s.work c : Int) ≤ Int64.maxValue.toInt

instance (s : Scheduler a) (c : Circuit) : Decidable (s.Fits c) :=
  inferInstanceAs (Decidable ((s.work c : Int) ≤ Int64.maxValue.toInt))

theorem Fits.under (h : s.Fits c) (p : Timing.Policy) : (s.under p).Fits c := by
  rw [Fits, work, load_under]
  exact h

theorem Fits.reversed (h : s.Fits c) : s.Fits c.reversed := by
  rw [Fits, work_reversed]
  exact h

/-! ## Nothing is lost -/

/-- A gate whose time and delay are paid for, with those before it, by a word. -/
theorem timeNode_eq_exact {layer : Nat} {base : Int} {p : Progress} {n : Node}
    (hp : (s.holding .exact).Charged trailing layer base p)
    (hfit : (s.load (p.timed.map (·.gate)) + s.span n.gate : Nat) ≤ Int64.maxValue.toInt) :
    s.timeNode trailing layer base p n = (s.holding .exact).timeNode trailing layer base p n := by
  have hready : readyAt base p n ≤ p.ends := foldl_max_le_iff.mpr ⟨hp.timely.base_le, fun q _ => (hp.free q).2⟩
  have hnonneg : 0 ≤ readyAt base p n := hp.timely.base_nonneg.trans (le_foldl_max p.free n.gate.qubits base)
  have hpaid := hp.paid
  unfold timeNode
  rw [durationOf_holding]
  cases hd : s.durationOf n.gate with
  | error e => rfl
  | ok k =>
    rw [span, lasts_eq hd] at hfit
    rw [load_holding] at hpaid
    have hheld : ∀ t : Int, 0 ≤ t → t ≤ readyAt base p n + s.delayOf n.gate + k → a.hold t = t :=
      fun t ht hle => a.hold_of_nonneg ht (by omega)
    have hduration := hheld k (by omega) (by omega)
    cases trailing with
    | false =>
      have hstart := hheld (readyAt base p n + s.delayOf n.gate) (by omega) (by omega)
      have hfinish := hheld (readyAt base p n + s.delayOf n.gate + k) (by omega) le_rfl
      simp only [readyAt] at hstart hfinish
      simp [Bind.bind, Except.bind, hduration, hstart, hfinish]
    | true =>
      have hfinish := hheld (readyAt base p n + k) (by omega) (by omega)
      have hrelease := hheld (readyAt base p n + k + s.delayOf n.gate) (by omega) (by omega)
      simp only [readyAt] at hfinish hrelease
      simp [Bind.bind, Except.bind, hduration, hfinish, hrelease]

theorem foldlM_timeNode_eq_exact {layer : Nat} {base : Int} {p : Progress} {ns : List Node}
    (hp : (s.holding .exact).Charged trailing layer base p)
    (hfit : (s.load (p.timed.map (·.gate)) + s.load (ns.map (·.gate)) : Nat) ≤ Int64.maxValue.toInt) :
    ns.foldlM (s.timeNode trailing layer base) p = ns.foldlM ((s.holding .exact).timeNode trailing layer base) p := by
  induction ns generalizing p with
  | nil => rfl
  | cons n ns ih =>
    simp only [List.map_cons, load] at hfit
    rw [List.foldlM_cons, List.foldlM_cons, timeNode_eq_exact hp (by omega)]
    cases h : (s.holding .exact).timeNode trailing layer base p n with
    | error e => rfl
    | ok p' =>
      refine ih (charged_timeNode hp h) ?_
      rw [(timeNode_occupies h).1, load_append]
      simp only [load]
      omega

theorem gates_of_foldlM {layer : Nat} {base : Int} {p p' : Progress} {ns : List Node}
    (h : ns.foldlM (s.timeNode trailing layer base) p = .ok p') :
    p'.timed.map (·.gate) = p.timed.map (·.gate) ++ ns.map (·.gate) := by
  rw [List.map_eq_flatMap (l := ns)]
  refine foldlM_appends (v := fun p : Progress => p.timed.map (·.gate)) (fun u n u' hu => ?_) h
  obtain ⟨-, t, htimed, hgate, -⟩ := exists_timed_of_timeNode hu
  simp [htimed, hgate]

theorem foldlM_timeLayer_eq_exact {ls : List (List Node)} {k : Nat} {p : Progress}
    (hp : (s.holding .exact).Charged trailing k p.ends p)
    (hfit : (s.load (p.timed.map (·.gate)) + s.load (ls.flatten.map (·.gate)) : Nat) ≤ Int64.maxValue.toInt) :
    (ls.zipIdx k).foldlM (s.timeLayer trailing) p = (ls.zipIdx k).foldlM ((s.holding .exact).timeLayer trailing) p := by
  induction ls generalizing k p with
  | nil => rfl
  | cons ns ls ih =>
    rw [List.flatten_cons, List.map_append, load_append] at hfit
    have hns : (s.load (p.timed.map (·.gate)) + s.load (ns.map (·.gate)) : Nat) ≤ Int64.maxValue.toInt := by omega
    have hlayer : s.timeLayer trailing p (ns, k) = (s.holding .exact).timeLayer trailing p (ns, k) :=
      foldlM_timeNode_eq_exact hp hns
    rw [List.zipIdx_cons, List.foldlM_cons, List.foldlM_cons, hlayer]
    cases h : (s.holding .exact).timeLayer trailing p (ns, k) with
    | error e => rfl
    | ok p' =>
      refine ih (charged_foldlM hp h).next ?_
      rw [gates_of_foldlM h, load_append]
      dsimp only
      omega

theorem timeForward_eq_exact (h : s.Fits c) (trailing : Bool) :
    s.timeForward trailing c = (s.holding .exact).timeForward trailing c := by
  unfold timeForward
  rw [foldlM_timeLayer_eq_exact charged_start]
  rw [s.load_of_perm (gates_layers_perm c)]
  exact (Int.ofNat_inj.mpr (Nat.zero_add _)).trans_le h

theorem endOf_eq {delay : Gate → Nat} (h : ∀ t ∈ ts, a.hold (t.finish + delay t.gate) = t.finish + delay t.gate) :
    endOf delay ts a = endOf delay ts := by
  unfold endOf
  exact List.foldl_ext _ _ _ fun m t ht => by rw [h t ht, Arithmetic.hold_exact]

theorem timeBackward_eq_exact (h : s.Fits c) : s.timeBackward c = (s.holding .exact).timeBackward c := by
  unfold timeBackward
  rw [timeForward_eq_exact h, timeForward_eq_exact h.reversed]
  cases hf : (s.holding .exact).timeForward false c with
  | error e => rfl
  | ok forward =>
    cases hb : (s.holding .exact).timeForward true c.reversed with
    | error e => rfl
    | ok back =>
      have hwork : (s.holding .exact).work c ≤ Int64.maxValue.toInt := by
        rw [work_holding]
        exact h
      have hforward : endOf (fun _ => 0) forward a = endOf (fun _ => 0) forward := by
        refine endOf_eq fun t ht => ?_
        simpa using (within_of_timeForward hf ht).2.1.hold_eq hwork a
      have hback : endOf s.delayOf back a = endOf s.delayOf back := by
        refine endOf_eq fun t ht => ?_
        have hrelease := (within_of_timeForward hb ht).2.2
        rw [work_reversed] at hrelease
        exact hrelease.hold_eq hwork a
      have hheld : ∀ n layers, ∀ t ∈ back, (reflect ((s.holding .exact).axisOf forward back) n layers t).held a =
          reflect ((s.holding .exact).axisOf forward back) n layers t := by
        intro n layers t ht
        obtain ⟨hstart, hfinish⟩ := within_reflect hf hb ht
        simp only [TimedGate.held, reflect, hstart.hold_eq hwork, hfinish.hold_eq hwork]
      show Except.ok _ = Except.ok _
      rw [hforward, hback]
      exact congrArg Except.ok (List.map_congr_left (hheld _ _))

theorem schedule_eq_exact (h : s.Fits c) : s.schedule c = (s.holding .exact).schedule c := by
  unfold schedule
  rw [timeForward_eq_exact h, timeBackward_eq_exact h]
  rfl

/-! ## All times are words -/

/-- All times of a state are words. -/
structure Progress.AreWords (p : Progress) : Prop where
  free : ∀ q, IsWord (p.free q)
  ends : IsWord p.ends
  timed : ∀ t ∈ p.timed, IsWord t.start ∧ IsWord t.finish

theorem areWords_start : Progress.start.AreWords := ⟨fun _ => isWord_zero, isWord_zero, List.forall_mem_nil _⟩

theorem areWords_timeNode {s : Scheduler .words} {layer : Nat} {base : Int} (hbase : IsWord base) {p p' : Progress}
    {n : Node} (hp : p.AreWords) (h : s.timeNode trailing layer base p n = .ok p') : p'.AreWords := by
  unfold timeNode at h
  obtain ⟨k, -, h⟩ := bind_eq_ok.mp h
  cases pure_eq_ok.mp h
  have hready : IsWord (n.gate.qubits.foldl (fun r q => max r (p.free q)) base) :=
    hbase.foldl_max fun q _ => hp.free q
  refine ⟨fun q => ?_, hp.ends.max ?_, fun t ht => ?_⟩
  · dsimp only
    split
    · split <;> exact isWord_hold _
    · exact hp.free q
  · split <;> exact isWord_hold _
  · rcases List.mem_append.mp ht with ht | ht
    · exact hp.timed t ht
    · cases List.mem_singleton.mp ht
      refine ⟨?_, isWord_hold _⟩
      dsimp only
      split
      · exact hready
      · exact isWord_hold _

theorem areWords_of_timeForward {s : Scheduler .words} (h : s.timeForward trailing c = .ok ts) :
    ∀ t ∈ ts, IsWord t.start ∧ IsWord t.finish := by
  obtain ⟨p, hp, h⟩ := bind_eq_ok.mp h
  cases pure_eq_ok.mp h
  refine (foldlM_keeps (P := Progress.AreWords) (fun u l _ u' hu hl => ?_) areWords_start hp).timed
  exact foldlM_keeps (P := Progress.AreWords) (fun _ _ _ _ => areWords_timeNode hu.ends) hu hl

/-- Every start and finish of a schedule in words is a word, and so is its makespan. -/
theorem isWord_of_schedule {s : Scheduler .words} {r : Schedule} (h : s.schedule c = .ok r) :
    (∀ t ∈ r.timed, IsWord t.start ∧ IsWord t.finish) ∧ IsWord r.makespan := by
  have htimes : ∀ t ∈ r.timed, IsWord t.start ∧ IsWord t.finish := by
    intro t ht
    obtain ⟨ts, rfl, ⟨-, hts⟩ | ⟨-, hts⟩⟩ := timed_of_schedule h
    · exact areWords_of_timeForward hts t ((timed_perm _ ts).mem_iff.mp ht)
    · obtain ⟨forward, back, -, -, rfl⟩ := reflected_of_timeBackward hts
      obtain ⟨u, -, rfl⟩ := List.mem_map.mp ((timed_perm _ _).mem_iff.mp ht)
      exact ⟨isWord_hold _, isWord_hold _⟩
  exact ⟨htimes, isWord_zero.foldl_max fun t ht => (htimes t ht).2⟩

end Scheduler

end CircuitMapping
