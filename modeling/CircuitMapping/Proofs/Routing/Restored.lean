/-
  CircuitMapping.Proofs.Routing.Restored — routing on a requested layout, which stands again before every gate.

  The qubits of an interaction are together after they have been brought together, so the check for it never fails
  (`checkTogether_of_approach`). The SWAPs that restore the layout are as many as those in front of the gate, and a gate
  that is too wide, has its qubits in different components or needs more SWAPs than are left is refused (`Refused`);
  every other gate is routed and leaves the layout as it was (`pinnedStep_cases`).

  So the routed circuit is a row of blocks that all fit the requested layout and restore it, and read through that
  layout it does what the logical circuit does (`pinned_restores_request`).
-/
import CircuitMapping.Proofs.Placement.Requests
import CircuitMapping.Proofs.Routing.Agreement
import CircuitMapping.Proofs.Routing.Course

namespace CircuitMapping

open Success

universe u

namespace Routing

variable {σ : Type} [Source σ] {d : Device} {g : Gate} {p q n limit k : Nat} {start : Layout} {st : Transit × σ}
  {e : Error}

/-! ## Together after being brought together -/

theorem checkTogether_of_approach {t t' : Transit} {s s' : σ} {swaps : List (Nat × Nat)}
    (he : t.layout.ends g = some (p, q)) (h : approach d g t s = .ok (t', swaps, s')) :
    checkTogether d g t'.layout = .ok () := by
  obtain ⟨hi, a, b, hab, ha, hb⟩ := Layout.ends_eq_some.mp he
  obtain ⟨xs, -, hx, -⟩ := approach_spec hi h
  have ha' := Layout.getElem?_after ha xs
  have hb' := Layout.getElem?_after hb xs
  rw [← hx.exchanged.layout] at ha' hb'
  have hsize : ∀ r ∈ g.qubits, r < t'.layout.size := by
    rw [hab]
    refine List.forall_mem_cons.mpr ⟨(List.getElem?_eq_some_iff.mp ha').1, ?_⟩
    exact List.forall_mem_singleton.mpr (List.getElem?_eq_some_iff.mp hb').1
  obtain ⟨placed, hplaced⟩ := Layout.exists_place hsize
  have hp := Layout.places_of_place hplaced
  obtain ⟨p', q', hqs, hp', hq'⟩ := hp.pair hab
  obtain ⟨p₁, q₁, hqs₁, hadj⟩ := hx.joined placed hp
  rw [hqs] at hqs₁
  cases hqs₁
  unfold checkTogether
  simp only [hab, Layout.physical_eq_ok.mpr hp', Layout.physical_eq_ok.mpr hq', bind, Except.bind, if_pos hadj]
  rfl

/-! ## One gate -/

/-- A gate that routing on the layout `start` refuses when it has inserted `used` SWAPs, and the error. -/
inductive Refused (d : Device) (start : Layout) (limit used : Nat) (g : Gate) : Error → Prop
  | tooWide : g.IsTooWide → Refused d start limit used g (.unsupported (.routing g.op g.qubits.length))
  | apart {p q : Nat} : start.ends g = some (p, q) → ¬ d.Linked p q → Refused d start limit used g (.noPath p q)
  /-- There and back. -/
  | overBudget : limit < used + 2 * d.swapsFor start g →
      Refused d start limit used g (.swapBudget limit (limit + 1) g.text)

/-- Between two gates: on the layout `start`, with `used` SWAPs inserted. -/
structure Rests (d : Device) (n limit : Nat) (start : Layout) (st : Transit × σ) (used : Nat) : Prop where
  sound : st.1.Sound d n
  layout : st.1.layout = start
  used : st.1.budget.used = used
  limit : st.1.budget.limit = limit

theorem pinnedStep_of_isTooWide (h : g.IsTooWide) (st : Transit × σ) :
    pinnedStep d st g = .error (.unsupported (.routing g.op g.qubits.length)) := by
  unfold pinnedStep
  rw [Gate.kind_of_isTooWide h]
  rfl

theorem pinnedStep_of_not_isInteraction (hw : ¬ g.IsTooWide) (h : ¬ g.IsInteraction) (st : Transit × σ) :
    pinnedStep d st g = st.1.emit g >>= fun t => return (t, st.2) := by
  obtain ⟨kind, hk⟩ := Gate.exists_kind hw
  unfold pinnedStep
  rw [hk]
  simp only [bind, Except.bind]
  rw [if_neg (fun hn => h ((Gate.needsAdjacency_iff hk).mp hn))]

theorem pinnedStep_of_approach_eq_error (hi : g.IsInteraction) (h : approach d g st.1 st.2 = .error e) :
    pinnedStep d st g = .error e := by
  obtain ⟨kind, hk⟩ := Gate.exists_kind (Gate.not_isTooWide_of_isInteraction hi)
  unfold pinnedStep
  rw [hk]
  simp only [bind, Except.bind]
  rw [if_pos ((Gate.needsAdjacency_iff hk).mpr hi), h]

/-- The SWAPs of a gate that has been put out are undone. -/
theorem pinnedStep_of_swapAll {t u v : Transit} {s : σ} {swaps : List (Nat × Nat)}
    (he : st.1.layout.ends g = some (p, q)) (h : approach d g st.1 st.2 = .ok (t, swaps, s)) (hu : t.emit g = .ok u)
    (hv : u.swapAll g swaps.reverse = (v, none)) : pinnedStep d st g = .ok (v, s) := by
  have hi := (Layout.ends_eq_some.mp he).1
  obtain ⟨kind, hk⟩ := Gate.exists_kind (Gate.not_isTooWide_of_isInteraction hi)
  unfold pinnedStep
  simp only [hk, (Gate.needsAdjacency_iff hk).mpr hi, if_true, h, checkTogether_of_approach he h, hu, hv, bind,
    Except.bind, pure, Except.pure]

theorem pinnedStep_of_swapAll_eq_some {t u v : Transit} {s : σ} {swaps : List (Nat × Nat)}
    (he : st.1.layout.ends g = some (p, q)) (h : approach d g st.1 st.2 = .ok (t, swaps, s)) (hu : t.emit g = .ok u)
    (hv : u.swapAll g swaps.reverse = (v, some e)) : pinnedStep d st g = .error e := by
  have hi := (Layout.ends_eq_some.mp he).1
  obtain ⟨kind, hk⟩ := Gate.exists_kind (Gate.not_isTooWide_of_isInteraction hi)
  unfold pinnedStep
  simp only [hk, (Gate.needsAdjacency_iff hk).mpr hi, if_true, h, checkTogether_of_approach he h, hu, hv, bind,
    Except.bind, throw, throwThe, MonadExceptOf.throw]

omit [Source σ] in
/-- A gate whose qubits are together, or need not be, is put out where it is. -/
theorem Rests.emit (h : Rests d n limit start st k) (hg : ∀ q ∈ g.qubits, q < n) (hn : d.swapsFor start g = 0) :
    ∃ t, st.1.emit g = .ok t ∧ Rests d n limit start (t, st.2) (k + 2 * d.swapsFor start g) := by
  obtain ⟨t, ht, hs, hl, hb⟩ := h.sound.exists_emit hg
  rw [hn]
  exact ⟨t, ht, hs, hl.trans h.layout, (congrArg _ hb).trans h.used, (congrArg _ hb).trans h.limit⟩

omit [Source σ] in
/-- SWAPs on couplings around a gate leave the layout as it was. -/
theorem rests_of_exchanged {t t₁ t₂ t₃ : Transit} {s : σ} {xs : List Exchange} (hx : t.Exchanged xs t₁)
    (hc : ∀ x ∈ xs, d.adjacent x.a x.b = true)
    (hb : t.budget.used + 2 * xs.length ≤ t.budget.limit) (hs₂ : t₂.Sound d n) (hl : t₂.layout = t₁.layout)
    (hbudget : t₂.budget = t₁.budget) (hy : t₂.Exchanged xs.reverse t₃) :
    Rests d n t.budget.limit t.layout (t₃, s) (t.budget.used + 2 * xs.length) where
  sound := by
    refine hs₂.exchanged hy (fun x hx => hc x (List.mem_reverse.mp hx)) ?_
    rw [hbudget, hx.used, hx.limit, List.length_reverse]
    omega
  layout := by rw [hy.layout, hl, hx.layout, Layout.after_reverse]
  used := by
    rw [hy.used, hbudget, hx.used, List.length_reverse]
    omega
  limit := by rw [hy.limit, hbudget, hx.limit]

/-- An interaction of linked qubits that are not coupled: all SWAPs take place, or one too many is needed. -/
theorem pinnedStep_of_isDetour {xs : List Exchange} {s' : σ} (h : Rests d n limit start st k)
    (hd : IsDetour d start g st.2 xs s') (hg : ∀ q ∈ g.qubits, q < n) :
    (∃ st', pinnedStep d st g = .ok st' ∧ Rests d n limit start st' (k + 2 * d.swapsFor start g)) ∨
    limit < k + 2 * d.swapsFor start g ∧ pinnedStep d st g = .error (.swapBudget limit (limit + 1) g.text) := by
  obtain ⟨hs, rfl, rfl, rfl⟩ := h
  obtain ⟨p, q, -, he, -⟩ := hd.path
  have hi := (Layout.ends_eq_some.mp he).1
  rw [← hd.length]
  rcases Nat.lt_or_ge st.1.budget.limit (st.1.budget.used + xs.length) with hlt | hle
  · exact .inr ⟨by omega, pinnedStep_of_approach_eq_error hi (approach_of_lt hs hd hlt)⟩
  obtain ⟨t₁, ht₁, hx⟩ := approach_of_le hs hd hle
  have hs₁ := hs.exchanged hx hd.coupled hle
  obtain ⟨t₂, ht₂, hs₂, hl, hb⟩ := hs₁.exists_emit hg
  -- the way back is made of the same exchanges, and has the same room
  have hroom : ∀ x ∈ xs.reverse, x.a < t₂.out.width ∧ x.b < t₂.out.width := by
    intro x hx
    have hm := Device.mem_nodes_of_adjacent (hd.coupled x (List.mem_reverse.mp hx))
    exact ⟨hs₂.room _ hm.1, hs₂.room _ hm.2⟩
  have hused : t₂.budget.used = st.1.budget.used + xs.length := by rw [hb, hx.used]
  have hlimit : t₂.budget.limit = st.1.budget.limit := by rw [hb, hx.limit]
  rcases Nat.lt_or_ge st.1.budget.limit (st.1.budget.used + 2 * xs.length) with hlt | hle'
  · have hover : t₂.budget.limit < t₂.budget.used + xs.reverse.length := by
      rw [List.length_reverse]
      omega
    obtain ⟨t₃, ht₃⟩ := Transit.swapAll_of_lt g hroom hs₂.within hover
    rw [hlimit, List.map_reverse] at ht₃
    exact .inr ⟨hlt, pinnedStep_of_swapAll_eq_some he ht₁ ht₂ ht₃⟩
  · have hcovered : t₂.budget.used + xs.reverse.length ≤ t₂.budget.limit := by
      rw [List.length_reverse]
      omega
    obtain ⟨t₃, ht₃, hy⟩ := Transit.swapAll_of_le g hroom hcovered
    rw [List.map_reverse] at ht₃
    exact .inl ⟨_, pinnedStep_of_swapAll he ht₁ ht₂ ht₃, rests_of_exchanged hx hd.coupled hle' hs₂ hl hb hy⟩

/-- A gate is routed and the layout stands again, or it is refused. -/
theorem pinnedStep_cases (h : Rests d n limit start st k) (hg : ∀ q ∈ g.qubits, q < n) :
    (∃ st', pinnedStep d st g = .ok st' ∧ Rests d n limit start st' (k + 2 * d.swapsFor start g)) ∨
    ∃ e, Refused d start limit k g e ∧ pinnedStep d st g = .error e := by
  by_cases hw : g.IsTooWide
  · exact .inr ⟨_, .tooWide hw, pinnedStep_of_isTooWide hw st⟩
  by_cases hi : g.IsInteraction
  · obtain ⟨p, q, he⟩ := Layout.exists_ends (l := start) hi (by rwa [← h.layout, h.sound.size])
    have he' := h.layout ▸ he
    by_cases hadj : d.adjacent p q = true
    · obtain ⟨t, ht, hr⟩ := h.emit hg (Device.swapsFor_of_adjacent he hadj)
      exact .inl ⟨_, pinnedStep_of_swapAll he' (approach_of_adjacent he' hadj st.2) ht rfl, hr⟩
    by_cases hl : d.Linked p q
    · obtain ⟨xs, s', hd⟩ := exists_detour (h.layout ▸ h.sound.onDevice) he (by simpa using hadj) hl st.2
      rcases pinnedStep_of_isDetour h hd hg with hok | ⟨hlt, herr⟩
      · exact .inl hok
      · exact .inr ⟨_, .overBudget hlt, herr⟩
    · exact .inr ⟨_, .apart he hl, pinnedStep_of_approach_eq_error hi (approach_of_not_linked h.sound he' hl st.2)⟩
  · have hn : start.ends g = none := if_neg hi
    obtain ⟨t, ht, hr⟩ := h.emit hg (Device.swapsFor_of_ends_eq_none hn)
    refine .inl ⟨(t, st.2), ?_, hr⟩
    rw [pinnedStep_of_not_isInteraction hw hi, ht]
    rfl

/-! ## All gates of a circuit -/

/-- Where gates are not all routed, one of them was refused. -/
theorem refused_of_foldlM {gs : List Gate} (h : Rests d n limit start st k) (hg : ∀ g ∈ gs, ∀ q ∈ g.qubits, q < n)
    (herr : gs.foldlM (pinnedStep d) st = .error e) : ∃ g ∈ gs, ∃ used, Refused d start limit used g e := by
  induction gs generalizing st k with
  | nil => cases herr
  | cons g gs ih =>
    obtain ⟨hq, hgs⟩ := List.forall_mem_cons.mp hg
    rcases pinnedStep_cases h hq with ⟨st', hst, hr⟩ | ⟨e', href, he⟩
    · rcases bind_eq_error.mp herr with herr | ⟨st₁, hst₁, herr⟩
      · rw [hst] at herr
        cases herr
      · rw [hst] at hst₁
        cases hst₁
        obtain ⟨g', hg', used, href⟩ := ih hr hgs herr
        exact ⟨g', List.mem_cons_of_mem g hg', used, href⟩
    · rw [List.foldlM_cons, he] at herr
      cases herr
      exact ⟨g, List.mem_cons_self .., k, href⟩

/-! ## Whole circuits -/

/-- Once the request is accepted, only the budget, the register or a gate is refused. -/
theorem routePinnedWith_eq_error_of_layout {x : Binary64} {s : σ} {request : Request} {c : Circuit}
    (hr : request.keys.Pairwise (· < ·)) (hd : d.InWords) (hstart : request.layout c d = .ok start)
    (h : routePinnedWith x s request c d = .error e) :
    (∃ a, e = .argument a) ∨ (∃ a, e = .configuration a) ∨
      ∃ limit used, ∃ g ∈ c.gates, Refused d start limit used g e := by
  unfold routePinnedWith at h
  rcases bind_eq_error.mp h with h | ⟨start', hstart', h⟩
  · cases hstart.symm.trans h
  cases hstart.symm.trans hstart'
  rcases bind_eq_error.mp h with h | ⟨budget, hb, h⟩
  · exact .inr (.inl ⟨_, ofFactor_eq_error h⟩)
  rcases bind_eq_error.mp h with h | ⟨last, hlast, h⟩
  · exact .inr (.inl ⟨_, Device.maxNode_eq_error h⟩)
  rcases bind_eq_error.mp h with h | ⟨out, hout, h⟩
  · exact .inl ⟨_, Circuit.empty_eq_error h⟩
  rcases bind_eq_error.mp h with h | ⟨st, -, h⟩
  · have hsize := Request.size_layout hr hstart
    rw [hd.succ (Device.maxNode_eq_ok hlast).1] at hout
    have hused := used_of_ofFactor hb
    have hs := Transit.sound_start hsize (Request.layout_eq_ok hstart).2.2 hused hlast hout
    have hrests : Rests d c.width budget.limit start ((⟨start, budget, out⟩, s) : Transit × σ) 0 :=
      ⟨hs, rfl, hused, rfl⟩
    obtain ⟨g, hg, used, href⟩ := refused_of_foldlM hrests c.forall_mem_gates h
    exact .inr (.inr ⟨_, used, g, hg, href⟩)
  · cases h

/-- Every error is that of an input refused before the first gate, or that of a gate. -/
theorem routePinnedWith_eq_error {x : Binary64} {s : σ} {entries : List (Nat × Nat)} {c : Circuit} (hd : d.InWords)
    (h : routePinnedWith x s (.ofEntries entries) c d = .error e) :
    (∃ a, e = .argument a) ∨ (∃ a, e = .configuration a) ∨ (∃ a, e = .placement a) ∨
      ∃ start limit used, ∃ g ∈ c.gates, Refused d start limit used g e := by
  rcases bind_eq_error.mp h with hrequest | ⟨start, hstart, -⟩
  · rcases Request.layout_eq_error hrequest with ha | ha
    · exact .inr (.inl ha)
    · exact .inr (.inr (.inl ha))
  · rcases routePinnedWith_eq_error_of_layout (Request.keys_ofEntries_ascending entries) hd hstart h with
      ha | ha | ⟨limit, used, hg⟩
    · exact .inl ha
    · exact .inr (.inl ha)
    · exact .inr (.inr (.inr ⟨start, limit, used, hg⟩))

/-- What routing on a requested layout puts out is a row of blocks, each of which fits the requested layout and leaves
    it as it was, so it does on that layout what the circuit does. Its check that qubits are together never fails. -/
theorem pinned_restores_request {o : Options} {entries : List (Nat × Nat)} {c : Circuit} {d : Device}
    (hd : d.InWords) :
    (∀ p q, routePinned o (.ofEntries entries) c d ≠ .error (.stillApart p q)) ∧
    ∀ r, routePinned o (.ofEntries entries) c d = .ok r →
      r.final = r.initial ∧
      (∀ i p : Nat, (i, p) ∈ Request.ofEntries entries ↔ r.initial.placement[i]? = some p) ∧
      (∃ bs : List Block,
        bs.map (·.logical) = c.gates ∧
        r.circuit.gates = bs.flatMap Block.gates ∧
        (∀ k, r.initial.after ((bs.take k).flatMap Block.inserted) = r.initial) ∧
        ∀ b ∈ bs, b.Fits d r.initial ∧ b.Restores d r.initial) ∧
      ∀ {W : Type u} (I : Meaning W) (physical logical : Nat → W), r.initial.Agrees physical logical →
        r.initial.Agrees (I.run r.circuit.gates physical) (I.run c.gates logical) := by
  refine ⟨?_, ?_⟩
  · intro p q h
    rcases routePinnedWith_eq_error hd h with ⟨a, h⟩ | ⟨a, h⟩ | ⟨a, h⟩ | ⟨start, limit, used, g, -, h⟩
    · cases h
    · cases h
    · cases h
    · cases h
  · intro r h
    obtain ⟨hrequest, -, bs, hbs, hrestores⟩ := routePinnedWith_spec h
    have hfinal : r.final = r.initial := by rw [hbs.run.final, Block.after_flatMap_inserted hrestores]
    refine ⟨hfinal, Request.mem_iff_of_layout (Request.keys_ofEntries_ascending entries) hrequest,
      ⟨bs, hbs.logical, hbs.gates, ?_, ?_⟩, ?_⟩
    · intro k
      exact Block.after_flatMap_inserted fun b hb => hrestores b (List.mem_of_mem_take hb)
    · intro b hb
      exact ⟨hbs.run.fits_of_restores hrestores hb, hrestores b hb⟩
    · intro W I physical logical hag
      have := hbs.agrees I hag
      rwa [hfinal] at this

/-- Four SWAPs are inserted around two of the gates. -/
theorem pinned_restores_request_allMeet : fourInARow.InWords ∧
    ∃ r, routePinned {} (.ofEntries [(2, 4), (0, 1), (1, 2)]) allMeet fourInARow = .ok r ∧ r.swaps = 4 ∧
      r.final = r.initial ∧
      (∀ i p : Nat, (i, p) ∈ Request.ofEntries [(2, 4), (0, 1), (1, 2)] ↔ r.initial.placement[i]? = some p) ∧
      (∃ bs : List Block,
        bs.map (·.logical) = allMeet.gates ∧
        r.circuit.gates = bs.flatMap Block.gates ∧
        (∀ k, r.initial.after ((bs.take k).flatMap Block.inserted) = r.initial) ∧
        ∀ b ∈ bs, b.Fits fourInARow r.initial ∧ b.Restores fourInARow r.initial) ∧
      ∀ {W : Type u} (I : Meaning W) (physical logical : Nat → W), r.initial.Agrees physical logical →
        r.initial.Agrees (I.run r.circuit.gates physical) (I.run allMeet.gates logical) := by
  have hd : fourInARow.InWords := by unfold Device.InWords; decide
  obtain ⟨r, hr, hs⟩ := exists_ok_of_map (x := routePinned {} (.ofEntries [(2, 4), (0, 1), (1, 2)]) allMeet fourInARow)
    (f := (·.swaps)) (b := 4) (by decide +kernel)
  exact ⟨hd, r, hr, hs, (pinned_restores_request hd).2 r hr⟩

end Routing

end CircuitMapping
