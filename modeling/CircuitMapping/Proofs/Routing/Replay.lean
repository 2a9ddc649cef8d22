/-
  CircuitMapping.Proofs.Routing.Replay — a routed circuit is a run of blocks.

  Bringing the qubits of an interaction together is a list of exchanges on couplings after which they are coupled
  (`approach_spec`). So one gate routed is one block put out: nothing stands behind the gate (`block_of_step`), or what
  was done in front of it is undone (`block_of_pinnedStep`). A circuit routed gate by gate is a run of such blocks,
  whose logical gates are those of the circuit, and what a step gives to its block every block has for the layout in
  front of it (`put_of_foldlM`, `routeWith_blocks`).

  So the circuit is in what routing puts out, gate by gate with inserted SWAPs between, and nothing else is
  (`route_keeps_circuit`).
-/
import CircuitMapping.Proofs.Routing.Blocks
import CircuitMapping.Proofs.Routing.Chains
import CircuitMapping.Routing.Pinned

namespace CircuitMapping.Routing

open Success

variable {σ : Type} [Source σ]

/-! ## Bringing two qubits together -/

/-- Exchanges on couplings that bring the qubits of `g` together. -/
structure Approached (d : Device) (g : Gate) (t : Transit) (xs : List Exchange) (t' : Transit) : Prop where
  exchanged : t.Exchanged xs t'
  coupled : ∀ x ∈ xs, d.adjacent x.a x.b = true
  joined : ∀ p, t'.layout.Places g p → d.Joins p

/-- There are exchanges only if the qubits are apart. -/
theorem approach_spec {d : Device} {g : Gate} {t t' : Transit} {s s' : σ} {swaps : List (Nat × Nat)}
    (hi : g.IsInteraction) (h : approach d g t s = .ok (t', swaps, s')) :
    ∃ xs : List Exchange, xs.map Exchange.pair = swaps ∧ Approached d g t xs t' ∧
      (xs ≠ [] → ∃ p q, t.layout.ends g = some (p, q) ∧ d.adjacent p q = false) := by
  obtain ⟨a, b, hne, hq⟩ := Gate.qubits_of_isInteraction hi
  unfold approach at h
  rw [hq] at h
  simp only at h
  obtain ⟨p, hp, h⟩ := bind_eq_ok.mp h
  obtain ⟨q, hq', h⟩ := bind_eq_ok.mp h
  have ha := Layout.physical_eq_ok.mp hp
  have hb := Layout.physical_eq_ok.mp hq'
  split at h
  · rename_i hadj
    cases pure_eq_ok.mp h
    refine ⟨[], rfl, ⟨.refl t, List.forall_mem_nil _, ?_⟩, fun hx => absurd rfl hx⟩
    intro g' hg
    obtain ⟨p', q', hqs, ha', hb'⟩ := hg.pair hq
    rw [ha] at ha'
    rw [hb] at hb'
    cases ha'; cases hb'
    exact ⟨p, q, hqs, hadj⟩
  · rename_i hadj
    obtain ⟨⟨path, s₁⟩, hpath, h⟩ := bind_eq_ok.mp h
    simp only at h
    split at h
    · cases h
    · rename_i u sw hw
      cases pure_eq_ok.mp h
      obtain ⟨rfl, xs, hxs, hx⟩ := Transit.exchanged_of_walk hw
      have hip := Device.isPath_of_shortestPath hpath
      refine ⟨xs, hxs, ⟨hx, Transit.adjacent_of_mem_chain hip hxs, ?_⟩, fun _ => ?_⟩
      · intro g' hg
        obtain ⟨p', q', hqs, ha', hb'⟩ := hg.pair hq
        rw [hx.layout] at ha' hb'
        rw [Layout.getElem?_after ha xs] at ha'
        rw [Layout.getElem?_after hb xs] at hb'
        cases ha'; cases hb'
        have hpq : p ≠ q := fun e => hne (Layout.placement_injective ha (e ▸ hb))
        exact ⟨_, _, hqs, Transit.adjacent_carry_chain hip hpq hxs⟩
      · exact ⟨p, q, Layout.ends_eq_some.mpr ⟨hi, a, b, hq, ha, hb⟩, by simpa using hadj⟩

/-! ## Blocks put out -/

/-- `t'` is `t` after the blocks have been put out. -/
structure Put (d : Device) (t : Transit) (bs : List Block) (t' : Transit) : Prop where
  run : Block.Run d t.layout bs t'.layout
  gates : t'.out.gates = t.out.gates ++ bs.flatMap Block.gates
  width : t'.out.width = t.out.width
  used : t'.budget.used = t.budget.used + (bs.flatMap Block.inserted).length

theorem Put.nil (d : Device) (t : Transit) : Put d t [] t := ⟨.nil _, by simp, rfl, rfl⟩

theorem Put.cons {d : Device} {t u v : Transit} {b : Block} {bs : List Block} (h : Put d t [b] u) (h' : Put d u bs v) :
    Put d t (b :: bs) v where
  run := by
    have hu := h.run.final
    rw [List.flatMap_singleton] at hu
    exact .cons h.run.fits_head (hu ▸ h'.run)
  gates := by simp [h'.gates, h.gates]
  width := h'.width.trans h.width
  used := by simp [h'.used, h.used, Nat.add_assoc]

/-- A gate routed in one step: exchanges, the gate put out, exchanges. -/
theorem Put.of_parts {d : Device} {t t₁ t₂ t₃ : Transit} {g : Gate} {k : Gate.Kind} {xs ys : List Exchange}
    (hk : g.kind = .ok k) (hx : t.Exchanged xs t₁) (he : t₁.emit g = .ok t₂) (hy : t₂.Exchanged ys t₃)
    (hc : ∀ x ∈ xs ++ ys, d.adjacent x.a x.b = true) (hidle : k.needsAdjacency = false → xs ++ ys = [])
    (hj : k.needsAdjacency = true → ∀ p, t₁.layout.Places g p → d.Joins p) :
    ∃ p, Put d t [⟨xs, g, p, ys⟩] t₃ := by
  obtain ⟨p, hp, -, hlayout, hbudget, hwidth, hgates⟩ := Transit.emit_eq_ok he
  have hplaces := Layout.places_of_place hp
  have hfinal : t₃.layout = t.layout.after (xs ++ ys) := by
    rw [hy.layout, hlayout, hx.layout, Layout.after_append]
  refine ⟨p, ⟨?_, ?_, ?_, ?_⟩⟩
  · rw [hfinal]
    exact .cons ⟨hc, hx.layout ▸ hplaces, k, hk, hidle, fun hn => hj hn p hplaces⟩ (.nil _)
  · simp [hy.gates, hgates, hx.gates, Block.gates]
  · rw [hy.width, hwidth, hx.width]
  · simp [hy.used, hbudget, hx.used, Block.inserted, Nat.add_assoc]

/-- A gate that nothing has to be done for is put out alone. -/
theorem Put.of_emit {d : Device} {t t' : Transit} {g : Gate} {k : Gate.Kind} (hk : g.kind = .ok k)
    (hn : ¬ k.needsAdjacency = true) (he : t.emit g = .ok t') : ∃ p, Put d t [⟨[], g, p, []⟩] t' := by
  refine Put.of_parts hk (.refl t) he (.refl t') ?_ (fun _ => rfl) ?_
  · intro x hx; cases hx
  · intro h; exact absurd h hn

theorem block_of_step {d : Device} {st st' : Transit × σ} {g : Gate} (h : step d st g = .ok st') :
    ∃ b : Block, b.logical = g ∧ b.behind = [] ∧ Put d st.1 [b] st'.1 := by
  unfold step at h
  obtain ⟨k, hk, h⟩ := bind_eq_ok.mp h
  dsimp only at h
  split at h
  · rename_i hneeds
    obtain ⟨⟨t, swaps, s⟩, happ, h⟩ := bind_eq_ok.mp h
    obtain ⟨t', he, h⟩ := bind_eq_ok.mp h
    cases pure_eq_ok.mp h
    obtain ⟨xs, -, hx, -⟩ := approach_spec ((Gate.needsAdjacency_iff hk).mp hneeds) happ
    obtain ⟨p, hput⟩ := Put.of_parts hk hx.exchanged he (.refl t') (by simpa using hx.coupled)
      (fun hn => (by rw [hneeds] at hn; cases hn)) (fun _ => hx.joined)
    exact ⟨_, rfl, rfl, hput⟩
  · rename_i hneeds
    obtain ⟨⟨t, swaps, s⟩, happ, h⟩ := bind_eq_ok.mp h
    cases pure_eq_ok.mp happ
    obtain ⟨t', he, h⟩ := bind_eq_ok.mp h
    cases pure_eq_ok.mp h
    obtain ⟨p, hput⟩ := Put.of_emit (d := d) hk hneeds he
    exact ⟨_, rfl, rfl, hput⟩

theorem block_of_pinnedStep {d : Device} {st st' : Transit × σ} {g : Gate} (h : pinnedStep d st g = .ok st') :
    ∃ b : Block, b.logical = g ∧ b.Restores d st.1.layout ∧ Put d st.1 [b] st'.1 := by
  unfold pinnedStep at h
  obtain ⟨k, hk, h⟩ := bind_eq_ok.mp h
  split at h
  · rename_i hneeds
    obtain ⟨⟨t, swaps, s⟩, happ, h⟩ := bind_eq_ok.mp h
    obtain ⟨-, -, h⟩ := bind_eq_ok.mp h
    obtain ⟨t', he, h⟩ := bind_eq_ok.mp h
    split at h
    · cases h
    · rename_i u hu
      cases pure_eq_ok.mp h
      obtain ⟨xs, hxs, hx, hapart⟩ := approach_spec ((Gate.needsAdjacency_iff hk).mp hneeds) happ
      obtain ⟨ys, hys, hy⟩ := Transit.exchanged_of_swapAll hu
      -- the exchanges that undo are told by their pairs
      have hyx : ys = xs.reverse := by
        refine List.map_injective_iff.mpr (fun _ _ => Exchange.pair_injective) ?_
        rw [hys, ← hxs, List.map_reverse]
      subst hyx
      have hc : ∀ x ∈ xs ++ xs.reverse, d.adjacent x.a x.b = true := by
        intro x hm
        rcases List.mem_append.mp hm with hm | hm
        · exact hx.coupled x hm
        · exact hx.coupled x (List.mem_reverse.mp hm)
      obtain ⟨p, hput⟩ := Put.of_parts hk hx.exchanged he hy hc
        (fun hn => (by rw [hneeds] at hn; cases hn)) (fun _ => hx.joined)
      exact ⟨_, rfl, ⟨rfl, hapart⟩, hput⟩
  · rename_i hneeds
    obtain ⟨t', he, h⟩ := bind_eq_ok.mp h
    cases pure_eq_ok.mp h
    obtain ⟨p, hput⟩ := Put.of_emit (d := d) hk hneeds he
    exact ⟨_, rfl, ⟨rfl, fun hx => absurd rfl hx⟩, hput⟩

/-- What holds at every place of a list holds of all its members. -/
theorem forall_mem_of_getElem? {α : Type} {P : α → Prop} {xs : List α}
    (h : ∀ (n : Nat) (x : α), xs[n]? = some x → P x) : ∀ x ∈ xs, P x := by
  intro x hx
  obtain ⟨n, hn⟩ := List.getElem?_of_mem hx
  exact h n x hn

omit [Source σ] in
/-- Gates routed one after the other, each as a block of some form, are a run of such blocks. The form may depend on
    the layout in front of the block, and on what each of the steps keeps of the layout. -/
theorem put_of_foldlM {d : Device} {f : Transit × σ → Gate → Except Error (Transit × σ)} {K : Layout → Prop}
    {P : Layout → Block → Prop}
    (hf : ∀ {st g st'}, K st.1.layout → f st g = .ok st' →
      K st'.1.layout ∧ ∃ b : Block, b.logical = g ∧ P st.1.layout b ∧ Put d st.1 [b] st'.1)
    {gs : List Gate} {st st' : Transit × σ} (hst : K st.1.layout) (h : gs.foldlM f st = .ok st') :
    ∃ bs : List Block, bs.map (·.logical) = gs ∧
      (∀ n b, bs[n]? = some b → P (Block.layoutAt st.1.layout bs n) b) ∧ Put d st.1 bs st'.1 := by
  induction gs generalizing st with
  | nil =>
    cases pure_eq_ok.mp h
    exact ⟨[], rfl, fun n b hb => (by cases hb), .nil d _⟩
  | cons g gs ih =>
    obtain ⟨u, hu, h⟩ := bind_eq_ok.mp h
    obtain ⟨hku, b, hb, hP, hput⟩ := hf hst hu
    obtain ⟨bs, hbs, hPs, hputs⟩ := ih hku h
    refine ⟨b :: bs, by rw [List.map_cons, hb, hbs], ?_, hput.cons hputs⟩
    intro n b' hb'
    cases n with
    | zero =>
      cases hb'
      exact hP
    | succ n =>
      have hfinal := hput.run.final
      rw [List.flatMap_singleton] at hfinal
      rw [Block.layoutAt_succ, ← hfinal]
      exact hPs n b' hb'

/-! ## Whole circuits -/

/-- The blocks are what routing `c` put out. -/
structure BlocksOf (d : Device) (c : Circuit) (r : Routed) (bs : List Block) : Prop where
  logical : bs.map (·.logical) = c.gates
  run : Block.Run d r.initial bs r.final
  gates : r.circuit.gates = bs.flatMap Block.gates
  swaps : r.swaps = (bs.flatMap Block.inserted).length

theorem used_of_ofFactor {x : Binary64} {n : Nat} {b : Budget} (h : Budget.ofFactor x n = .ok b) : b.used = 0 := by
  unfold Budget.ofFactor at h
  split at h
  · cases h; rfl
  · cases h

theorem ofFactor_eq_error {x : Binary64} {n : Nat} {e : Error} (h : Budget.ofFactor x n = .error e) :
    e = .configuration (.swapFactor x) := by
  unfold Budget.ofFactor at h
  split at h
  · cases h
  · cases h; rfl

/-- The budget of an amount is the whole part of the product, where that fits into a word. -/
theorem exists_budget {x : Binary64} {n : Nat} (hx : x.isAmount = true) :
    ∃ limit, Budget.ofFactor x n = .ok ⟨limit, 0⟩ ∧
      ((x.times n).magnitude.floor < Word.count → limit = (x.times n).magnitude.floor) :=
  ⟨_, if_pos hx, fun h => if_pos h⟩

omit [Source σ] in
/-- The gates of a circuit routed one after the other, from an empty register and a fresh budget. -/
theorem blocksOf_of_foldlM {d : Device} {c : Circuit} {f : Transit × σ → Gate → Except Error (Transit × σ)}
    {K : Layout → Prop} {P : Layout → Block → Prop}
    (hf : ∀ {st g st'}, K st.1.layout → f st g = .ok st' →
      K st'.1.layout ∧ ∃ b : Block, b.logical = g ∧ P st.1.layout b ∧ Put d st.1 [b] st'.1)
    {x : Binary64} {n w : Nat} {start : Layout} {budget : Budget} {out : Circuit} {t : Transit} {s s' : σ}
    (hk : K start) (hb : Budget.ofFactor x n = .ok budget) (ho : Circuit.empty w = .ok out)
    (h : c.gates.foldlM f (⟨start, budget, out⟩, s) = .ok (t, s')) :
    t.out.width = w ∧ ∃ bs, BlocksOf d c ⟨t.out, start, t.layout, t.budget.used, c.depth, t.out.depth⟩ bs ∧
      ∀ n b, bs[n]? = some b → P (Block.layoutAt start bs n) b := by
  obtain ⟨bs, hbs, hP, hput⟩ := put_of_foldlM hf hk h
  obtain ⟨hw, hg⟩ := Circuit.empty_eq_ok ho
  refine ⟨hput.width.trans hw, bs, ⟨hbs, hput.run, ?_, ?_⟩, hP⟩
  · have := hput.gates
    rwa [hg, List.nil_append] at this
  · have := hput.used
    rwa [used_of_ofFactor hb, Nat.zero_add] at this

/-- What routing returns when all gates have been routed. -/
def summary (c : Circuit) (start : Layout) (t : Transit) : Routed :=
  ⟨t.out, start, t.layout, t.budget.used, c.depth, t.out.depth⟩

/-- The layout that routing starts from. -/
def firstLayout (c : Circuit) (d : Device) (initial : Option Layout) : Except Error Layout :=
  initial.elim (Layout.lowest c.width d) .ok

theorem routeWith_eq (x : Binary64) (s : σ) (c : Circuit) (d : Device) (initial : Option Layout) :
    routeWith x s c d initial = checkInputs c d initial >>= fun _ => Budget.ofFactor x c.size >>= fun budget =>
      firstLayout c d initial >>= fun start => Routed.registerSize c d start >>= fun w => Circuit.empty w >>= fun out =>
        c.gates.foldlM (step d) (⟨start, budget, out⟩, s) >>= fun st => .ok (summary c start st.1) := by
  cases initial with
  | none => rfl
  | some l => rfl

theorem routePinnedWith_eq (x : Binary64) (s : σ) (request : Request) (c : Circuit) (d : Device) :
    routePinnedWith x s request c d = request.layout c d >>= fun start => Budget.ofFactor x c.size >>= fun budget =>
      d.maxNode >>= fun last => Circuit.empty (Word.succ last) >>= fun out =>
        c.gates.foldlM (pinnedStep d) (⟨start, budget, out⟩, s) >>= fun st => .ok (summary c start st.1) := rfl

/-- What routing along shortest paths asks of a circuit and a first layout. -/
theorem checkInputs_eq_ok {c : Circuit} {d : Device} {initial : Option Layout} {u : Unit}
    (h : checkInputs c d initial = .ok u) :
    c.width ≤ d.nodes.length ∧ ∀ l, initial = some l → l.size = c.width ∧ l.OnDevice d := by
  unfold checkInputs at h
  dsimp only at h
  obtain ⟨-, h⟩ := guard_eq_ok.mp h
  obtain ⟨hw, h⟩ := guard_eq_ok.mp h
  refine ⟨by omega, ?_⟩
  rintro l rfl
  obtain ⟨hs, h⟩ := guard_eq_ok.mp h
  exact ⟨by omega, Layout.onDevice_of_checkOn h⟩

/-- The layout that routing starts from: the one that is given, or else the lowest nodes. -/
def IsStart (c : Circuit) (d : Device) (initial : Option Layout) (l : Layout) : Prop :=
  match initial with
  | some l' => l = l'
  | none => l.placement = d.nodes.take c.width

theorem isStart_of_firstLayout {c : Circuit} {d : Device} {initial : Option Layout} {l : Layout}
    (h : firstLayout c d initial = .ok l) : IsStart c d initial l := by
  cases initial with
  | some l' =>
    cases h
    rfl
  | none => exact (Layout.lowest_eq_ok h).2

theorem IsStart.fits {c : Circuit} {d : Device} {initial : Option Layout} {l : Layout} {u : Unit}
    (h : IsStart c d initial l) (hc : checkInputs c d initial = .ok u) : l.size = c.width ∧ l.OnDevice d := by
  obtain ⟨hw, hl⟩ := checkInputs_eq_ok hc
  cases initial with
  | some l' =>
    obtain rfl : l = l' := h
    exact hl l rfl
  | none =>
    have hp : l.placement = d.nodes.take c.width := h
    refine ⟨?_, ?_⟩
    · rw [Layout.size, hp, List.length_take]
      omega
    · intro p hm
      rw [hp] at hm
      exact List.mem_of_mem_take hm

/-- What routing puts out is a row of blocks that start from a layout on the device, each of the form that a step
    gives to its block. -/
theorem routeWith_blocks {x : Binary64} {s : σ} {c : Circuit} {d : Device} {initial : Option Layout} {r : Routed}
    {P : Layout → Block → Prop}
    (hf : ∀ {st st' : Transit × σ} {g : Gate}, st.1.layout.OnDevice d → step d st g = .ok st' →
      ∃ b : Block, b.logical = g ∧ P st.1.layout b ∧ Put d st.1 [b] st'.1)
    (h : routeWith x s c d initial = .ok r) :
    checkInputs c d initial = .ok () ∧ IsStart c d initial r.initial ∧
      Routed.registerSize c d r.initial = .ok r.circuit.width ∧
      ∃ bs, BlocksOf d c r bs ∧ ∀ n b, bs[n]? = some b → P (Block.layoutAt r.initial bs n) b := by
  rw [routeWith_eq] at h
  obtain ⟨u, hc, h⟩ := bind_eq_ok.mp h
  obtain ⟨budget, hb, h⟩ := bind_eq_ok.mp h
  obtain ⟨start, hs, h⟩ := bind_eq_ok.mp h
  obtain ⟨w, hw, h⟩ := bind_eq_ok.mp h
  obtain ⟨out, ho, h⟩ := bind_eq_ok.mp h
  obtain ⟨⟨t, s'⟩, ht, h⟩ := bind_eq_ok.mp h
  cases h
  have hstart := isStart_of_firstLayout hs
  have hkeep : ∀ {st : Transit × σ} {g : Gate} {st' : Transit × σ}, st.1.layout.OnDevice d → step d st g = .ok st' →
      st'.1.layout.OnDevice d ∧ ∃ b : Block, b.logical = g ∧ P st.1.layout b ∧ Put d st.1 [b] st'.1 := by
    intro st g st' hon hst
    obtain ⟨b, hb, hP, hput⟩ := hf hon hst
    exact ⟨hput.run.onDevice hon, b, hb, hP, hput⟩
  obtain ⟨hwidth, hbs⟩ := blocksOf_of_foldlM (K := Layout.OnDevice d) hkeep (hstart.fits hc).2 hb ho ht
  exact ⟨hc, hstart, hw.trans (congrArg Except.ok hwidth.symm), hbs⟩

theorem routeWith_spec {x : Binary64} {s : σ} {c : Circuit} {d : Device} {initial : Option Layout} {r : Routed}
    (h : routeWith x s c d initial = .ok r) :
    checkInputs c d initial = .ok () ∧ IsStart c d initial r.initial ∧
      Routed.registerSize c d r.initial = .ok r.circuit.width ∧
      ∃ bs, BlocksOf d c r bs ∧ ∀ b ∈ bs, b.behind = [] := by
  obtain ⟨hc, hs, hw, bs, hbs, hbehind⟩ := routeWith_blocks (P := fun _ b => b.behind = []) (fun _ => block_of_step) h
  exact ⟨hc, hs, hw, bs, hbs, forall_mem_of_getElem? hbehind⟩

theorem routePinnedWith_spec {x : Binary64} {s : σ} {request : Request} {c : Circuit} {d : Device} {r : Routed}
    (h : routePinnedWith x s request c d = .ok r) :
    request.layout c d = .ok r.initial ∧ (∃ last, d.maxNode = .ok last ∧ r.circuit.width = Word.succ last) ∧
      ∃ bs, BlocksOf d c r bs ∧ ∀ b ∈ bs, b.Restores d r.initial := by
  unfold routePinnedWith at h
  obtain ⟨start, hs, h⟩ := bind_eq_ok.mp h
  obtain ⟨budget, hb, h⟩ := bind_eq_ok.mp h
  obtain ⟨last, hl, h⟩ := bind_eq_ok.mp h
  obtain ⟨out, ho, h⟩ := bind_eq_ok.mp h
  obtain ⟨⟨t, s'⟩, ht, h⟩ := bind_eq_ok.mp h
  cases pure_eq_ok.mp h
  have hf : ∀ {st : Transit × σ} {g st'}, st.1.layout = start → pinnedStep d st g = .ok st' →
      st'.1.layout = start ∧ ∃ b : Block, b.logical = g ∧ b.Restores d start ∧ Put d st.1 [b] st'.1 := by
    rintro st g st' rfl hst
    obtain ⟨b, hbg, hr, hput⟩ := block_of_pinnedStep hst
    refine ⟨?_, b, hbg, hr, hput⟩
    rw [hput.run.final, List.flatMap_singleton, hr.after_inserted]
  obtain ⟨hwidth, bs, hbs, hrestores⟩ := blocksOf_of_foldlM (K := (· = start)) (P := fun _ => Block.Restores d start) hf
    rfl hb ho ht
  exact ⟨hs, ⟨last, hl, hwidth⟩, bs, hbs, forall_mem_of_getElem? hrestores⟩

/-! ## The circuit is kept -/

/-- Routing along shortest paths puts out a block for each gate, with all its SWAPs in front: the gate on the qubits of
    the layout that the SWAPs so far, and they alone, have made of the first one. -/
theorem route_keeps_circuit {o : Options} {c : Circuit} {d : Device} {initial : Option Layout} {r : Routed}
    (h : route o c d initial = .ok r) :
    IsStart c d initial r.initial ∧
    (∃ bs : List Block,
      bs.map (·.logical) = c.gates ∧
      r.circuit.gates = bs.flatMap Block.gates ∧
      (∀ b ∈ bs, b.behind = []) ∧
      Block.Run d r.initial bs r.final ∧
      r.final = r.initial.after (bs.flatMap Block.inserted) ∧
      r.swaps = (bs.flatMap Block.inserted).length) ∧
    r.circuit.size = c.size + r.swaps ∧
    r.circuit.countOf .swap = c.countOf .swap + r.swaps := by
  obtain ⟨-, hs, -, bs, hbs, hbehind⟩ := routeWith_spec h
  have hlen : bs.length = c.gates.length := by rw [← hbs.logical, List.length_map]
  refine ⟨hs, ⟨bs, hbs.logical, hbs.gates, hbehind, hbs.run, hbs.run.final, hbs.swaps⟩, ?_, ?_⟩
  · rw [Circuit.size_eq_length, Circuit.size_eq_length, hbs.gates, Block.length_flatMap_gates, hbs.swaps, hlen]
  · unfold Circuit.countOf
    rw [hbs.gates, hbs.run.countP_flatMap_gates, hbs.logical, hbs.swaps]

/-- Four qubits in a row. -/
def fourInARow : Device := ⟨[1, 2, 4, 7], [⟨1, 2⟩, ⟨2, 4⟩, ⟨4, 7⟩], by decide, by decide, by decide⟩

/-- Three qubits that all meet, two of them also in a SWAP of the circuit's own. -/
def allMeet : Circuit where
  width := 3
  entries := Circuit.number [⟨.cnot, [0, 2], [], by decide⟩, ⟨.swap, [2, 0], [], by decide⟩,
    ⟨.cz, [1, 2], [], by decide⟩, ⟨.cnot, [0, 1], [], by decide⟩, ⟨.measure, [2], [], by decide⟩]
  width_pos := by decide
  in_range := by decide

/-- Two SWAPs are inserted beside the one of the circuit. -/
theorem route_keeps_circuit_allMeet : ∃ r, route {} allMeet fourInARow none = .ok r ∧ r.swaps = 2 ∧
    IsStart allMeet fourInARow none r.initial ∧
    (∃ bs : List Block,
      bs.map (·.logical) = allMeet.gates ∧
      r.circuit.gates = bs.flatMap Block.gates ∧
      (∀ b ∈ bs, b.behind = []) ∧
      Block.Run fourInARow r.initial bs r.final ∧
      r.final = r.initial.after (bs.flatMap Block.inserted) ∧
      r.swaps = (bs.flatMap Block.inserted).length) ∧
    r.circuit.size = allMeet.size + r.swaps ∧
    r.circuit.countOf .swap = allMeet.countOf .swap + r.swaps := by
  obtain ⟨r, hr, hs⟩ := exists_ok_of_map (x := route {} allMeet fourInARow none) (f := (·.swaps)) (b := 2)
    (by decide +kernel)
  exact ⟨r, hr, hs, route_keeps_circuit hr⟩

end CircuitMapping.Routing
