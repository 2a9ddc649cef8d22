/-
  CircuitMapping.Proofs.Circuit.Counted — every circuit of a program counts its gates.

  A circuit with a count does what a `Circuit` does, as long as the count is the number of its gates: the same gates are
  accepted (`add_of_ok`) and refused (`add_of_le`), and reversing it leaves the reversed circuit (`reversed_counted`).
  Its gates are then inside the register, so its levels are all found in the table, which goes with the levels of
  `depthFrom` gate by gate (`raise?_levels`) and has the depth as its maximum (`depth?_counted`).

  Such a circuit is built from its gates alone (`Built`): whatever ids the gates had before, they have their positions
  now. A call leaves this so for all circuits that a program holds (`built_call`), and changes no circuit but the one
  that it is made on (`getElem?_call`). From an empty program on this is all that can be reached
  (`circuits_keep_count`).
-/
import CircuitMapping.Circuit.Counted
import CircuitMapping.Proofs.Circuit.Depth
import CircuitMapping.Proofs.Circuit.Register

namespace CircuitMapping.Circuit

open Success

namespace Counted

variable {c c' : Circuit} {t : Counted} {ts : List Counted} {e : Entry} {g : Gate} {gs : List Gate} {x : Call}
  {f : Nat → Nat} {k w b : Nat}

/-! ## Levels in a table -/

theorem mapM_levels {qs : List Nat} (h : ∀ q ∈ qs, q < w) :
    (qs.mapM fun q => ((List.range w).map f)[q]?) = some (qs.map f) := by
  induction qs with
  | nil => rfl
  | cons q qs ih =>
    obtain ⟨hq, hqs⟩ := List.forall_mem_cons.mp h
    rw [List.mapM_cons, List.getElem?_map, List.getElem?_range hq, ih hqs]
    rfl

theorem foldl_set_levels (f : Nat → Nat) (qs : List Nat) (l : Nat) :
    qs.foldl (fun levels q => levels.set q l) ((List.range w).map f) = (List.range w).map (lift f qs l) := by
  induction qs generalizing f with
  | nil => simp [lift]
  | cons q qs ih =>
    have hset : ((List.range w).map f).set q l = (List.range w).map (lift f [q] l) := by
      refine List.ext_getElem (by simp) fun i _ _ => ?_
      rw [List.getElem_set]
      simp [lift, eq_comm]
    rw [List.foldl_cons, hset, ih]
    refine List.map_congr_left fun r _ => ?_
    by_cases hr : r ∈ qs <;> simp [lift, hr]

theorem raise?_levels (h : ∀ q ∈ g.qubits, q < w) :
    raise? ((List.range w).map f) g = some ((List.range w).map (rise f g)) := by
  rw [raise?, mapM_levels h]
  show some _ = some _
  rw [foldl_set_levels, List.foldl_map]
  rfl

theorem foldlM_raise? (h : ∀ g ∈ gs, ∀ q ∈ g.qubits, q < w) :
    gs.foldlM raise? ((List.range w).map f) = some ((List.range w).map (gs.foldl rise f)) := by
  induction gs generalizing f with
  | nil => rfl
  | cons g gs ih =>
    obtain ⟨hg, hgs⟩ := List.forall_mem_cons.mp h
    rw [List.foldlM_cons, raise?_levels hg]
    exact ih hgs

theorem forall_rise_le_iff (h : ∀ q ∈ g.qubits, q < w) :
    (∀ q < w, rise f g q ≤ b) ↔ (∀ q < w, f q ≤ b) ∧ top f g.qubits + 1 ≤ b := by
  constructor
  · intro hle
    obtain ⟨r, hr⟩ := List.exists_mem_of_ne_nil _ g.qubits_ne_nil
    have htop : top f g.qubits + 1 ≤ b := rise_of_mem hr ▸ hle r (h r hr)
    refine ⟨fun q hq => ?_, htop⟩
    by_cases hqg : q ∈ g.qubits
    · exact (le_top hqg).trans (Nat.le_of_succ_le htop)
    · have := hle q hq
      rwa [rise_of_notMem hqg] at this
  · rintro ⟨hle, htop⟩ q hq
    by_cases hqg : q ∈ g.qubits
    · rwa [rise_of_mem hqg]
    · rw [rise_of_notMem hqg]
      exact hle q hq

/-- What some gates leave in the table is bounded by what was there before and by the depth that they reach. -/
theorem forall_levels_le_iff (h : ∀ g ∈ gs, ∀ q ∈ g.qubits, q < w) :
    (∀ q < w, gs.foldl rise f q ≤ b) ↔ (∀ q < w, f q ≤ b) ∧ depthFrom f gs ≤ b := by
  induction gs generalizing f with
  | nil => simp [depthFrom]
  | cons g gs ih =>
    obtain ⟨hg, hgs⟩ := List.forall_mem_cons.mp h
    rw [List.foldl_cons, ih hgs, forall_rise_le_iff hg, depthFrom_cons, max_le_iff, and_assoc]

theorem max?_levels (hw : 0 < w) (h : ∀ g ∈ gs, ∀ q ∈ g.qubits, q < w) :
    ((List.range w).map (gs.foldl rise fun _ => 0)).max? = some (depthFrom (fun _ => 0) gs) := by
  obtain ⟨m, hm⟩ : ∃ m, ((List.range w).map (gs.foldl rise fun _ => 0)).max? = some m := by
    rw [← Option.isSome_iff_exists, List.isSome_max?_iff]
    simp [Nat.pos_iff_ne_zero.mp hw]
  have hbound : ∀ b, m ≤ b ↔ depthFrom (fun _ => 0) gs ≤ b := by
    intro b
    rw [List.max?_le_iff hm]
    simpa using forall_levels_le_iff (f := fun _ => 0) (b := b) h
  rw [hm, eq_of_forall_ge_iff hbound]

/-- The table has a place for every qubit of every gate, and its maximum is the depth. -/
theorem depth?_counted (c : Circuit) : c.counted.depth? = some c.depth := by
  have hlevels : List.replicate c.width 0 = (List.range c.width).map fun _ => 0 := by simp
  have htable : (do (← c.gates.foldlM raise? (List.replicate c.width 0)).max?) = some c.depth := by
    rw [hlevels, foldlM_raise? c.forall_mem_gates]
    exact max?_levels c.width_pos c.forall_mem_gates
  unfold depth?
  split
  · rename_i hempty
    have hentries : c.entries = [] := List.isEmpty_iff.mp hempty
    rw [depth, Circuit.gates, hentries]
    rfl
  · exact htable

/-! ## One call -/

theorem add_of_lt (h : ∀ q ∈ e.gate.qubits, q < t.width) :
    t.add e = (⟨t.width, t.entries ++ [⟨t.next, e.gate⟩], t.next + 1⟩, .ok ()) := by
  rw [add, find?_eq_none_of_lt h]

theorem add_of_ok (h : c.add e.gate = .ok c') : c.counted.add e = (c'.counted, .ok ()) := by
  obtain ⟨hlt, hw, -⟩ := add_eq_ok h
  rw [add_of_lt hlt]
  simp [counted, hw, entries_of_add h]

/-- A refused gate changes nothing. -/
theorem add_of_le (h : ∃ q ∈ e.gate.qubits, t.width ≤ q) : ∃ q ∈ e.gate.qubits, t.width ≤ q ∧
    t.add e = (t, .error (.range (.circuitQubit e.gate.op q t.width))) := by
  obtain ⟨q, hq, hle, hfind⟩ := exists_find?_of_le h
  exact ⟨q, hq, hle, by rw [add, hfind]⟩

theorem addAll_of_ok {es : List Entry} (h : c.addAll (es.map (·.gate)) = .ok c') :
    c.counted.addAll es = .ok c'.counted := by
  induction es generalizing c with
  | nil =>
    cases h
    rfl
  | cons e es ih =>
    obtain ⟨c₁, hc₁, h⟩ := bind_eq_ok.mp h
    refine bind_eq_ok.mpr ⟨c₁.counted, ?_, ih h⟩
    dsimp only
    rw [add_of_ok hc₁]
    rfl

theorem empty_of_ok (h : Circuit.empty w = .ok c) : empty w = .ok c.counted := by
  unfold Circuit.empty at h
  split at h
  · rename_i hw
    cases h
    exact if_neg (Nat.pos_iff_ne_zero.mp hw)
  · cases h

theorem reversed_counted (c : Circuit) : c.counted.reversed = .ok c.reversed.counted := by
  have hreversed : ofGates c.width c.gates.reverse = .ok c.reversed := ofGates_eq_ok_iff.mpr ⟨rfl, rfl⟩
  obtain ⟨c₀, hc₀, hadd⟩ := bind_eq_ok.mp hreversed
  refine bind_eq_ok.mpr ⟨c₀.counted, empty_of_ok hc₀, addAll_of_ok ?_⟩
  rwa [List.map_reverse]

theorem clone_counted (c : Circuit) : c.counted.clone = .ok c.counted := by
  obtain ⟨c₀, hc₀⟩ := exists_empty c.width_pos
  refine bind_eq_ok.mpr ⟨c₀.counted, empty_of_ok hc₀, ?_⟩
  show Except.ok (Counted.mk c₀.width _ _) = _
  rw [(empty_eq_ok hc₀).1]
  rfl

/-! ## Calls in a row -/

/-- The circuit is the one that is built from its gates, and counts them. -/
def Built (t : Counted) : Prop := ∃ c : Circuit, ofGates c.width c.gates = .ok c ∧ c.counted = t

theorem built_counted (h : c.entries = number c.gates) : Built c.counted := ⟨c, ofGates_eq_ok_iff.mpr ⟨rfl, h⟩, rfl⟩

theorem number_concat (gs : List Gate) (g : Gate) : number (gs ++ [g]) = number gs ++ [⟨gs.length, g⟩] := by
  simp [number, List.zipIdx_append]

theorem built_add (h : Built t) (e : Entry) : Built (t.add e).1 := by
  obtain ⟨c, hc, rfl⟩ := h
  by_cases he : ∀ q ∈ e.gate.qubits, q < c.width
  · obtain ⟨c', hc'⟩ := exists_add he
    rw [add_of_ok hc']
    refine built_counted ?_
    rw [(add_eq_ok hc').2.2, number_concat, ← (ofGates_eq_ok hc).2, entries_of_add hc', ← c.size_eq_length]
    rfl
  · obtain ⟨q, -, -, hadd⟩ := add_of_le (t := c.counted) (by simpa [counted] using he)
    rw [hadd]
    exact ⟨c, hc, rfl⟩

theorem built_clear (h : Built t) : Built t.clear := by
  obtain ⟨c, -, rfl⟩ := h
  exact built_counted (c := c.clear) rfl

theorem built_hold (h : ∀ t ∈ ts, Built t) {r : Except Error Counted} (hr : ∀ t, r = .ok t → Built t) :
    ∀ t ∈ hold ts r, Built t := by
  intro t ht
  unfold hold at ht
  split at ht
  · rcases List.mem_append.mp ht with ht | ht
    · exact h t ht
    · exact hr t (congrArg Except.ok (List.mem_singleton.mp ht).symm)
  · exact h t ht

theorem built_holdFrom (h : ∀ t ∈ ts, Built t) {make : Counted → Except Error Counted}
    (hmake : ∀ t r, Built t → make t = .ok r → Built r) (k : Nat) : ∀ t ∈ holdFrom ts k make, Built t := by
  unfold holdFrom
  split
  · rename_i t hk
    exact built_hold h fun r => hmake t r (h t (List.mem_of_getElem? hk))
  · exact h

theorem built_modify (h : ∀ t ∈ ts, Built t) {f : Counted → Counted} (hf : ∀ t, Built t → Built (f t)) (k : Nat) :
    ∀ t ∈ ts.modify k f, Built t := by
  intro t ht
  obtain ⟨i, hi⟩ := List.mem_iff_getElem?.mp ht
  rw [List.getElem?_modify] at hi
  obtain ⟨u, hu, rfl⟩ := Option.map_eq_some_iff.mp hi
  have hbuilt := h u (List.mem_of_getElem? hu)
  split
  · exact hf u hbuilt
  · exact hbuilt

theorem built_addTo (h : ∀ t ∈ ts, Built t) (k : Nat) (e? : Option Entry) : ∀ t ∈ addTo ts k e?, Built t := by
  cases e? with
  | some e => exact built_modify h (fun t ht => built_add ht e) k
  | none => exact h

/-- A call leaves every circuit that is held built from its gates. -/
theorem built_call (h : ∀ t ∈ ts, Built t) (x : Call) : ∀ t ∈ call ts x, Built t := by
  cases x with
  | create width =>
    refine built_hold h fun t ht => ?_
    unfold empty at ht
    split at ht
    · cases ht
    · rename_i hw
      cases ht
      exact built_counted (c := ⟨width, [], Nat.pos_of_ne_zero hw, by simp⟩) rfl
  | add k o => exact built_addTo h k (o.entry? ts)
  | clear k => exact built_modify h (fun t => built_clear) k
  | reverse k =>
    refine built_holdFrom h (fun t r ht hr => ?_) k
    obtain ⟨c, -, rfl⟩ := ht
    cases (reversed_counted c).symm.trans hr
    exact built_counted (by rw [gates_reversed]; rfl)
  | clone k =>
    refine built_holdFrom h (fun t r ht hr => ?_) k
    obtain ⟨c, hc, rfl⟩ := ht
    cases (clone_counted c).symm.trans hr
    exact ⟨c, hc, rfl⟩

theorem built_callAll (h : ∀ t ∈ ts, Built t) (xs : List Call) : ∀ t ∈ callAll ts xs, Built t := by
  induction xs generalizing ts with
  | nil => exact h
  | cons x xs ih => exact ih (built_call h x)

/-! ## Circuits that are left alone -/

theorem getElem?_hold (h : ts[k]? = some t) (r : Except Error Counted) : (hold ts r)[k]? = some t := by
  unfold hold
  split
  · exact (List.getElem?_append_left (List.getElem?_eq_some_iff.mp h).1).trans h
  · exact h

theorem getElem?_holdFrom (h : ts[k]? = some t) (i : Nat) (make : Counted → Except Error Counted) :
    (holdFrom ts i make)[k]? = some t := by
  unfold holdFrom
  split
  · exact getElem?_hold h _
  · exact h

theorem getElem?_addTo {i : Nat} (h : ts[k]? = some t) (hi : i ≠ k) (e? : Option Entry) :
    (addTo ts i e?)[k]? = some t := by
  cases e? with
  | some e => exact (List.getElem?_modify_ne _ _ hi).trans h
  | none => exact h

/-- A call made elsewhere leaves a circuit as it is. -/
theorem getElem?_call (h : ts[k]? = some t) (hx : x.target? ≠ some k) : (call ts x)[k]? = some t := by
  cases x with
  | create width => exact getElem?_hold h _
  | add i o => exact getElem?_addTo h (fun hi => hx (congrArg some hi)) (o.entry? ts)
  | clear i => exact (List.getElem?_modify_ne _ _ fun hi => hx (congrArg some hi)).trans h
  | reverse i => exact getElem?_holdFrom h i reversed
  | clone i => exact getElem?_holdFrom h i clone

theorem getElem?_callAll (h : ts[k]? = some t) {xs : List Call} (hxs : ∀ x ∈ xs, x.target? ≠ some k) :
    (callAll ts xs)[k]? = some t := by
  induction xs generalizing ts with
  | nil => exact h
  | cons x xs ih =>
    obtain ⟨hx, hxs⟩ := List.forall_mem_cons.mp hxs
    exact ih (getElem?_call h hx) hxs

/-! ## Whole runs -/

/-- The gates have their positions as ids, the next one gets their number, and all are on distinct qubits inside the
    register. This is the circuit that is built from them, and its depth is computed without leaving the table. A gate
    is refused exactly when one of its qubits is outside, which changes nothing. -/
structure Counts (t : Counted) : Prop where
  ids : ∀ (i : Nat) (e : Entry), t.entries[i]? = some e → e.id = i
  next : t.next = t.entries.length
  distinct : ∀ e ∈ t.entries, e.gate.qubits.Nodup
  inside : ∀ e ∈ t.entries, ∀ q ∈ e.gate.qubits, q < t.width
  depth : ∃ c, ofGates t.width t.gates = .ok c ∧ c.counted = t ∧ t.depth? = some c.depth
  accepts : ∀ e, (∀ q ∈ e.gate.qubits, q < t.width) →
    t.add e = (⟨t.width, t.entries ++ [⟨t.entries.length, e.gate⟩], t.entries.length + 1⟩, .ok ())
  refuses : ∀ e, (∃ q ∈ e.gate.qubits, t.width ≤ q) → ∃ q ∈ e.gate.qubits, t.width ≤ q ∧
    t.add e = (t, .error (.range (.circuitQubit e.gate.op q t.width)))

theorem Built.counts (h : Built t) : Counts t := by
  obtain ⟨c, hc, rfl⟩ := h
  exact {
    ids := by
      intro i e hi
      have hentries : c.counted.entries = number c.gates := (ofGates_eq_ok hc).2
      rw [hentries, number, List.getElem?_map, List.getElem?_zipIdx] at hi
      obtain ⟨p, hp, rfl⟩ := Option.map_eq_some_iff.mp hi
      obtain ⟨g, -, rfl⟩ := Option.map_eq_some_iff.mp hp
      exact Nat.zero_add i
    next := rfl
    distinct := fun e _ => e.gate.nodup
    inside := c.in_range
    depth := ⟨c, hc, rfl, depth?_counted c⟩
    accepts := fun e => add_of_lt
    refuses := fun e => add_of_le }

theorem callAll_concat (ts : List Counted) (xs : List Call) (x : Call) :
    callAll ts (xs ++ [x]) = call (callAll ts xs) x := List.foldl_concat ..

theorem holdFrom_of_ok {make : Counted → Except Error Counted} {r : Counted} (h : ts[k]? = some t)
    (hr : make t = .ok r) : holdFrom ts k make = ts ++ [r] := by
  rw [holdFrom, h]
  dsimp only
  rw [hr, hold]

/-- Whatever calls a program makes, refused ones included, each circuit that it holds counts its gates. Cloning one
    holds the same circuit once more, and reversing it holds one with its gates in reverse order. No other call than
    adding to it or clearing it changes it, whatever is done with its clones. -/
theorem circuits_keep_count (xs : List Call) {k : Nat} {t : Counted} (h : (callAll [] xs)[k]? = some t) :
    Counts t ∧
    callAll [] (xs ++ [.clone k]) = callAll [] xs ++ [t] ∧
    (∃ r, callAll [] (xs ++ [.reverse k]) = callAll [] xs ++ [r] ∧ r.width = t.width ∧ r.gates = t.gates.reverse) ∧
    ∀ ys : List Call, (∀ y ∈ ys, y.target? ≠ some k) → (callAll [] (xs ++ ys))[k]? = some t := by
  have hbuilt : Built t := built_callAll (List.forall_mem_nil _) xs t (List.mem_of_getElem? h)
  refine ⟨hbuilt.counts, ?_, ?_, fun ys hys => ?_⟩
  · obtain ⟨c, -, rfl⟩ := hbuilt
    exact (callAll_concat ..).trans (holdFrom_of_ok h (clone_counted c))
  · obtain ⟨c, -, rfl⟩ := hbuilt
    refine ⟨c.reversed.counted, ?_, rfl, c.gates_reversed⟩
    exact (callAll_concat ..).trans (holdFrom_of_ok h (reversed_counted c))
  · rw [callAll, List.foldl_append]
    exact getElem?_callAll h hys

/-- A circuit with one gate, which refuses another, a clone with that gate again, on other qubits too, but not on one
    qubit twice, and the clone reversed. -/
def lent : List Call :=
  [.create 14, .add 0 (.parts 9 .cnot [13, 12] []), .add 0 (.parts 9 .x [14] []), .clone 0, .add 1 (.taken 0 0),
    .add 1 (.retargeted 0 0 [12, 11]), .add 1 (.retargeted 0 0 [12, 12]), .reverse 1]

/-- The reversed clone numbers its gates anew, and it stays when the clone is cleared and used again. -/
theorem circuits_keep_count_lent : ∃ t, (callAll [] lent)[2]? = some t ∧
    t.entries.map (fun e => (e.id, e.gate.qubits)) = [(0, [12, 11]), (1, [13, 12]), (2, [13, 12])] ∧
    t.depth? = some 3 ∧ Counts t ∧ (callAll [] (lent ++ [.clear 1, .add 1 (.taken 2 0)]))[2]? = some t := by
  obtain ⟨t, ht, hentries, hdepth⟩ : ∃ t, (callAll [] lent)[2]? = some t ∧
      t.entries.map (fun e => (e.id, e.gate.qubits)) = [(0, [12, 11]), (1, [13, 12]), (2, [13, 12])] ∧
      t.depth? = some 3 := ⟨_, rfl, rfl, rfl⟩
  obtain ⟨hcounts, -, -, hstays⟩ := circuits_keep_count lent ht
  exact ⟨t, ht, hentries, hdepth, hcounts, hstays _ (by decide)⟩

end Counted

end CircuitMapping.Circuit
