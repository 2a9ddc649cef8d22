/-
  CircuitMapping.Proofs.Placement.Search — what a search for a first layout does to the layouts that it tries.

  A simulation swaps the ends of candidate edges only, which are couplings (`adjacent_of_mem_candidates`), and counts
  every SWAP; executing interactions changes neither. So the layout that it leaves is the one that it was given after
  as many exchanges on couplings as it has counted (`moved_simulate`), whatever the costs are and whatever is drawn.

  A trial starts from distinct nodes of the device, one for each logical qubit, and exchanges on couplings keep them
  so. So where the circuit fits the device and its interactions are known, every search finds a layout of its qubits on
  nodes, whatever its options and draws (`exists_assignWith`).
-/
import CircuitMapping.Placement.Sabre
import CircuitMapping.Proofs.Layout.Exchanges

namespace CircuitMapping

open Success

theorem Device.adjacent_between (d : Device) (p q : Nat) :
    d.adjacent (Edge.between p q).lo (Edge.between p q).hi = d.adjacent p q := by
  have hmin : min (min p q) (max p q) = min p q := by omega
  have hmax : max (min p q) (max p q) = max p q := by omega
  have hsame : Edge.between (Edge.between p q).lo (Edge.between p q).hi = Edge.between p q := by
    simp only [Edge.between, hmin, hmax]
  unfold adjacent
  rw [hsame]

namespace Sabre

variable {σ : Type} {d : Device} {s : Search} {pairs : Array (Nat × Nat)} {st st' : State σ}

/-! ## Exchanges that are counted -/

/-- `st'` is reached from `st` by exchanges on couplings, each counted. -/
def Moved (d : Device) (st st' : State σ) : Prop :=
  ∃ xs : List Exchange, (∀ x ∈ xs, d.adjacent x.a x.b = true) ∧ st'.layout = st.layout.after xs ∧
    st'.swaps = st.swaps + xs.length

theorem Moved.of_eq (hl : st'.layout = st.layout) (hs : st'.swaps = st.swaps) : Moved d st st' :=
  ⟨[], List.forall_mem_nil _, hl, hs⟩

theorem Moved.trans {st'' : State σ} (h : Moved d st st') (h' : Moved d st' st'') : Moved d st st'' := by
  obtain ⟨xs, hx, hl, hs⟩ := h
  obtain ⟨ys, hy, hl', hs'⟩ := h'
  refine ⟨xs ++ ys, List.forall_mem_append.mpr ⟨hx, hy⟩, ?_, ?_⟩
  · rw [hl', hl, Layout.after_append]
  · rw [hs', hs, List.length_append, Nat.add_assoc]

/-- Executing interactions moves no qubit. -/
theorem execute_keeps (pairs : Array (Nat × Nat)) (st : State σ) (g : Nat) :
    (st.execute pairs g).layout = st.layout ∧ (st.execute pairs g).swaps = st.swaps := by
  unfold State.execute
  split
  · exact ⟨rfl, rfl⟩
  · exact ⟨rfl, rfl⟩

theorem foldl_execute_keeps (pairs : Array (Nat × Nat)) (gs : List Nat) (st : State σ) :
    (gs.foldl (State.execute pairs) st).layout = st.layout ∧ (gs.foldl (State.execute pairs) st).swaps = st.swaps := by
  induction gs generalizing st with
  | nil => exact ⟨rfl, rfl⟩
  | cons g gs ih =>
    obtain ⟨hl, hs⟩ := ih (st.execute pairs g)
    exact ⟨hl.trans (execute_keeps pairs st g).1, hs.trans (execute_keeps pairs st g).2⟩

theorem drain_keeps (s : Search) (pairs : Array (Nat × Nat)) (n : Nat) (st : State σ) :
    (s.drain pairs n st).layout = st.layout ∧ (s.drain pairs n st).swaps = st.swaps := by
  induction n generalizing st with
  | zero => exact ⟨rfl, rfl⟩
  | succ n ih =>
    unfold Search.drain
    split
    · exact ⟨rfl, rfl⟩
    · rename_i g gs _
      obtain ⟨hl, hs⟩ := ih ((g :: gs).foldl (State.execute pairs) st)
      obtain ⟨hl', hs'⟩ := foldl_execute_keeps pairs (g :: gs) st
      exact ⟨hl.trans hl', hs.trans hs'⟩

theorem moved_drain (d : Device) (s : Search) (n : Nat) (st : State σ) : Moved d st (s.drain pairs n st) :=
  .of_eq (drain_keeps s pairs n st).1 (drain_keeps s pairs n st).2

/-! ## One SWAP -/

theorem mem_of_mem_cheapest {cost : Edge → Float} {edges : List Edge} {e : Edge} (h : e ∈ cheapest cost edges) :
    e ∈ edges := by
  have hfold : ∀ (best : Float × List Edge) (es : List Edge), e ∈ (es.foldl (keepCheapest cost) best).2 →
      e ∈ best.2 ∨ e ∈ es := by
    intro best es
    induction es generalizing best with
    | nil => exact .inl
    | cons x es ih =>
      intro h
      have hm := List.mem_cons_self (a := x) (l := es)
      rcases ih _ h with h | h
      · unfold keepCheapest at h
        dsimp only at h
        split at h
        · exact .inr (List.mem_singleton.mp h ▸ hm)
        · split at h
          · rcases List.mem_append.mp h with h | h
            · exact .inl h
            · exact .inr (List.mem_singleton.mp h ▸ hm)
          · exact .inl h
      · exact .inr (List.mem_cons_of_mem x h)
  rcases hfold _ _ h with h | h
  · cases h
  · exact h

theorem mem_candidates (hs : s.links = s.device.links) {l : Layout} {ps : List (Nat × Nat)} {e : Edge} :
    e ∈ s.candidates l ps ↔ ∃ pair ∈ ps, ∃ q, (q = pair.1 ∨ q = pair.2) ∧ ∃ p r, l.placement[q]? = some p ∧
      s.device.adjacent p r = true ∧ Edge.between p r = e := by
  unfold Search.candidates
  rw [Ascending.mem_ofList]
  simp only [List.mem_flatMap, List.mem_cons, List.not_mem_nil, or_false]
  refine exists_congr fun pair => and_congr Iff.rfl (exists_congr fun q => and_congr Iff.rfl ?_)
  cases l.placement[q]? with
  | none => simp
  | some p => simp [hs, Device.partners_links, Device.mem_partners]

theorem adjacent_of_mem_candidates (hs : s.links = s.device.links) {l : Layout} {inFront : List (Nat × Nat)} {e : Edge}
    (h : e ∈ s.candidates l inFront) : s.device.adjacent e.lo e.hi = true := by
  obtain ⟨-, -, -, -, p, r, -, hadj, rfl⟩ := (mem_candidates hs).mp h
  rwa [Device.adjacent_between]

variable [Source σ]

theorem moved_move (hs : s.links = s.device.links) (h : s.move pairs st = some st') : Moved s.device st st' := by
  unfold Search.move at h
  dsimp only at h
  rw [tryAll_layout] at h
  split at h
  · cases h
  · rename_i e es he
    cases h
    generalize hx : (e :: es).getD _ e = x
    -- whatever number was drawn, one of the cheapest edges is taken
    have hm : x ∈ e :: es := by
      rw [← hx, List.getD_eq_getElem?_getD]
      rcases hget : (e :: es)[_]? with _ | y
      · exact List.mem_cons_self ..
      · exact List.mem_of_getElem? hget
    rw [← he] at hm
    have hadj := adjacent_of_mem_candidates hs (mem_of_mem_cheapest hm)
    have hne : x.lo ≠ x.hi := by
      intro e
      rw [e, Device.adjacent_self] at hadj
      cases hadj
    exact ⟨[⟨x.lo, x.hi, hne⟩], List.forall_mem_singleton.mpr hadj, rfl, rfl⟩

/-! ## Simulations -/

theorem moved_run (hs : s.links = s.device.links) (pairs : Array (Nat × Nat)) (n : Nat) (st : State σ) :
    Moved s.device st (s.run pairs n st) := by
  induction n generalizing st with
  | zero => exact moved_drain _ s _ st
  | succ n ih =>
    unfold Search.run
    dsimp only
    split
    · exact moved_drain _ s _ st
    · split
      · exact moved_drain _ s _ st
      · rename_i st' hst
        exact (moved_drain _ s _ st).trans ((moved_move hs hst).trans (ih st'))

/-- A simulation applies the SWAPs that it reports, each on a coupling. -/
theorem moved_simulate (hs : s.links = s.device.links) (width : Nat) (pairs : List (Nat × Nat)) (l : Layout)
    (source : σ) : ∃ xs : List Exchange, (∀ x ∈ xs, s.device.adjacent x.a x.b = true) ∧
      (s.simulate width pairs l source).layout = l.after xs ∧
      (s.simulate width pairs l source).swaps = xs.length := by
  obtain ⟨xs, hx, hl, hswaps⟩ := moved_run (σ := σ) hs pairs.toArray _ _
  exact ⟨xs, hx, hl, hswaps.trans (Nat.zero_add _)⟩

/-- Without couplings it applies none. -/
theorem swaps_simulate_of_no_coupling (hs : s.links = s.device.links) (h : ∀ p q, s.device.adjacent p q = false)
    (width : Nat) (pairs : List (Nat × Nat)) (l : Layout) (source : σ) :
    (s.simulate width pairs l source).swaps = 0 := by
  obtain ⟨xs, hx, -, hswaps⟩ := moved_simulate hs width pairs l source
  cases xs with
  | nil => exact hswaps
  | cons x xs => cases (h x.a x.b).symm.trans (hx x (List.mem_cons_self ..))

/-! ## Trials -/

theorem fits_simulate (hs : s.links = s.device.links) {n : Nat} {l : Layout} (h : l.Fits s.device n) (width : Nat)
    (pairs : List (Nat × Nat)) (source : σ) : (s.simulate width pairs l source).layout.Fits s.device n := by
  obtain ⟨xs, hx, hl, -⟩ := moved_simulate hs width pairs l source
  rw [hl]
  exact ⟨(Layout.size_after l xs).trans h.1, Layout.onDevice_after h.2 hx⟩

theorem exists_trial (hs : s.links = s.device.links) {width : Nat} (hw : width ≤ s.device.nodes.length)
    (pairs : List (Nat × Nat)) (source : σ) :
    ∃ r, s.trial width pairs source = .ok r ∧ r.1.layout.Fits s.device width := by
  have hperm := Source.shuffle_perm s.device.nodes source
  have hnodup : ((Source.shuffle s.device.nodes source).1.take width).Nodup := by
    have hnodes : s.device.nodes.Nodup := s.device.nodes_ascending.imp Nat.ne_of_lt
    exact (hperm.nodup_iff.mpr hnodes).sublist (List.take_sublist _ _)
  have hstart : Layout.Fits s.device width ⟨(Source.shuffle s.device.nodes source).1.take width, hnodup⟩ := by
    refine ⟨?_, fun p hp => hperm.mem_iff.mp (List.mem_of_mem_take hp)⟩
    show (List.take width _).length = width
    rw [List.length_take, hperm.length_eq]
    omega
  have hlist : Layout.ofList ((Source.shuffle s.device.nodes source).1.take width) = .ok _ := dif_pos hnodup
  refine ⟨_, bind_eq_ok.mpr ⟨_, hlist, rfl⟩, ?_⟩
  exact fits_simulate hs (fits_simulate hs hstart width pairs _) width pairs.reverse _

theorem exists_trials (hs : s.links = s.device.links) {width : Nat} (hw : width ≤ s.device.nodes.length)
    (pairs : List (Nat × Nat)) (n : Nat) {best : Candidate} (hbest : best.layout.Fits s.device width) (source : σ) :
    ∃ r, s.trials width pairs n best source = .ok r ∧ r.layout.Fits s.device width := by
  induction n generalizing best source with
  | zero => exact ⟨best, rfl, hbest⟩
  | succ n ih =>
    obtain ⟨⟨next, source'⟩, hnext, hfits⟩ := exists_trial hs hw pairs source
    have hbetter : (if next.score.isBetter best.score then next else best).layout.Fits s.device width := by
      split
      · exact hfits
      · exact hbest
    obtain ⟨r, hr, hfits⟩ := ih hbetter source'
    exact ⟨r, bind_eq_ok.mpr ⟨_, hnext, hr⟩, hfits⟩

/-! ## The search -/

variable {c : Circuit}

/-- What a search asks for does not depend on its options or its source of draws. -/
theorem checks_of_assignWith {o : Options} {source : σ} {r : Outcome} (h : assignWith o source c d = .ok r) :
    Placement.checkFits c d = .ok () ∧ ∃ pairs, interactions c = .ok pairs := by
  obtain ⟨_, hc, h⟩ := bind_eq_ok.mp h
  obtain ⟨pairs, hp, -⟩ := bind_eq_ok.mp h
  exact ⟨hc, pairs, hp⟩

theorem width_le_of_checkFits {u : Unit} (h : Placement.checkFits c d = .ok u) : c.width ≤ d.nodes.length := by
  obtain ⟨-, h⟩ := guard_eq_ok.mp h
  by_contra hlt
  rw [if_pos (by omega)] at h
  cases h

theorem exists_assignWith (hc : Placement.checkFits c d = .ok ()) {pairs : List (Nat × Nat)}
    (hp : interactions c = .ok pairs) (o : Options) (source : σ) :
    ∃ r, assignWith o source c d = .ok r ∧ r.layout.Fits d c.width := by
  have hw := width_le_of_checkFits hc
  by_cases hempty : pairs.isEmpty = true
  · obtain ⟨l, hl, hfits⟩ := Layout.exists_lowest hw
    refine ⟨⟨l, none⟩, ?_, hfits⟩
    refine bind_eq_ok.mpr ⟨(), hc, bind_eq_ok.mpr ⟨pairs, hp, (if_pos hempty).trans ?_⟩⟩
    exact bind_eq_ok.mpr ⟨l, hl, rfl⟩
  · obtain ⟨⟨first, source₁⟩, hfirst, hfits⟩ := exists_trial (s := ⟨d, d.links, DistanceTable.ofDevice d, o⟩) rfl hw
      pairs source
    obtain ⟨best, hbest, hfits⟩ := exists_trials (s := ⟨d, d.links, DistanceTable.ofDevice d, o⟩) rfl hw pairs
      (o.trials - 1) hfits source₁
    refine ⟨⟨best.layout, some best.score.swaps⟩, ?_, hfits⟩
    refine bind_eq_ok.mpr ⟨(), hc, bind_eq_ok.mpr ⟨pairs, hp, (if_neg hempty).trans ?_⟩⟩
    exact bind_eq_ok.mpr ⟨_, hfirst, bind_eq_ok.mpr ⟨best, hbest, rfl⟩⟩

/-- Whatever was drawn, the layout found has a node for every qubit of the circuit. -/
theorem fits_of_assignWith {o : Options} {source : σ} {r : Outcome} (h : assignWith o source c d = .ok r) :
    r.layout.Fits d c.width := by
  obtain ⟨hc, pairs, hp⟩ := checks_of_assignWith h
  obtain ⟨r', hr', hfits⟩ := exists_assignWith hc hp o source
  rw [h] at hr'
  cases hr'
  exact hfits

end Sabre

end CircuitMapping
