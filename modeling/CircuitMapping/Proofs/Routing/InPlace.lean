/-
  CircuitMapping.Proofs.Routing.InPlace — what can be executed as it stands is only translated.

  A gate is in place on a layout when nothing has to be moved for it (`InPlace`); a barrier on two qubits that are not
  coupled is. Either way of routing puts such a gate out and does nothing else (`InPlace.step`,
  `InPlace.pinnedStep`), so both translate a circuit of such gates alike, gate by gate (`translated`), whatever the
  budget and the draws. Conversely, gates that took no SWAP were in place (`inPlace_of_swaps_eq_zero`).

  What routing puts out is in place where it stands (`inPlace_of_route`), so on a device whose qubits are numbered from
  0 a routed circuit is routed to itself. All of this is `in_place_is_translated`.
-/
import CircuitMapping.Proofs.Routing.Feasibility
import CircuitMapping.Proofs.Routing.LeastSwaps
import CircuitMapping.Proofs.Routing.OnDevice

namespace CircuitMapping

open Success

/-! ## Every qubit on itself -/

namespace Layout

/-- The layout of `n` qubits that has each on the physical qubit of its own number. -/
def identity (n : Nat) : Layout := ⟨List.range n, List.nodup_range⟩

@[simp] theorem size_identity (n : Nat) : (identity n).size = n := List.length_range

theorem onDevice_identity {d : Device} {n : Nat} (h : d.nodes = List.range n) : (identity n).OnDevice d := by
  intro p hp
  rw [h]
  exact hp

theorem identity_eq_some {n i p : Nat} : (identity n).placement[i]? = some p ↔ i < n ∧ p = i := by
  rw [identity, List.getElem?_eq_some_iff]
  simp [eq_comm]

/-- There a gate is translated to itself. -/
theorem Places.eq_of_identity {n : Nat} {g h : Gate} (hp : (identity n).Places g h) : h = g := by
  obtain ⟨hop, hparams, hqubits⟩ := hp
  have heq : g.qubits = h.qubits := by
    rw [← List.forall₂_eq_eq_eq]
    exact hqubits.imp fun q p hq => (identity_eq_some.mp hq).2.symm
  cases g
  cases h
  cases hop
  cases hparams
  cases heq
  rfl

theorem eq_of_forall₂_identity {n : Nat} {gs hs : List Gate} (h : List.Forall₂ (identity n).Places gs hs) :
    hs = gs := by
  have heq := h.imp fun _ _ hp => hp.eq_of_identity.symm
  rw [List.forall₂_eq_eq_eq] at heq
  exact heq.symm

end Layout

namespace Routing

variable {σ : Type} [Source σ] {d : Device} {l : Layout} {g : Gate} {c : Circuit} {r : Routed}

/-! ## Gates in place -/

/-- Nothing has to be moved for the gate on the layout `l`: it is not too wide, and an interaction has its qubits on
    coupled nodes. -/
structure InPlace (d : Device) (l : Layout) (g : Gate) : Prop where
  narrow : ¬ g.IsTooWide
  coupled : g.IsInteraction → ∃ p q, l.ends g = some (p, q) ∧ d.adjacent p q = true

/-- A step of routing on the layout `l` puts the gate out and does nothing else. -/
def OnlyEmits (f : Transit × σ → Gate → Except Error (Transit × σ)) (l : Layout) (g : Gate) : Prop :=
  ∀ st : Transit × σ, st.1.layout = l → f st g = st.1.emit g >>= fun t => .ok (t, st.2)

theorem InPlace.step (h : InPlace d l g) : OnlyEmits (σ := σ) (Routing.step d) l g := by
  rintro st rfl
  by_cases hi : g.IsInteraction
  · obtain ⟨p, q, he, hadj⟩ := h.coupled hi
    rw [step_of_isInteraction hi, approach_of_adjacent he hadj]
    rfl
  · exact step_of_not_isInteraction h.narrow hi st

theorem InPlace.pinnedStep (h : InPlace d l g) : OnlyEmits (σ := σ) (Routing.pinnedStep d) l g := by
  rintro st rfl
  by_cases hi : g.IsInteraction
  · obtain ⟨p, q, he, hadj⟩ := h.coupled hi
    have happ := approach_of_adjacent he hadj st.2
    rw [pinnedStep_of_isInteraction hi, happ]
    show checkTogether d g st.1.layout >>= (fun _ => st.1.emit g >>= fun t => .ok (t, st.2)) = _
    rw [checkTogether_of_approach he happ]
    rfl
  · exact pinnedStep_of_not_isInteraction h.narrow hi st

/-- A block without SWAPs is one of a gate in place. -/
theorem inPlace_of_fits {b : Block} (h : b.Fits d l) (hb : b.before = []) : InPlace d l b.logical where
  narrow := by
    obtain ⟨k, hk, -⟩ := h.kind
    exact Gate.not_isTooWide_of_kind hk
  coupled hi := by
    have htogether := (h.gathers hi).together
    rwa [hb] at htogether

/-! ## The layout that routing starts from -/

theorem IsStart.unique {initial : Option Layout} {l' : Layout} (h : IsStart c d initial l)
    (h' : IsStart c d initial l') : l = l' := by
  cases initial with
  | some l₀ => exact Eq.trans h (Eq.symm h')
  | none => exact Layout.ext (Eq.trans h (Eq.symm h'))

/-- A circuit as wide as a device with qubits 0, 1, 2, … starts with every qubit on itself. -/
theorem isStart_identity {n : Nat} (hn : d.nodes = List.range n) (hw : c.width = n) :
    IsStart c d none (.identity n) := by
  show List.range n = d.nodes.take c.width
  rw [hn, hw, List.take_of_length_le (Nat.le_of_eq List.length_range)]

theorem firstLayout_of_isStart {initial : Option Layout} (hs : IsStart c d initial l) (hw : c.width ≤ d.nodes.length) :
    firstLayout c d initial = .ok l := by
  cases initial with
  | some l' =>
    obtain rfl : l = l' := hs
    rfl
  | none =>
    obtain ⟨l', hl', -⟩ := Layout.exists_lowest hw
    have hs' : IsStart c d none l' := (Layout.lowest_eq_ok hl').2
    rw [hs.unique hs']
    exact hl'

/-! ## Circuits in place -/

/-- The circuit on the qubits of the layout `l`, gate by gate with nothing between. -/
def translated (c : Circuit) (d : Device) (l : Layout) : Except Error Routed := do
  let out ← Circuit.ofGates ((← d.maxNode) + 1) (← c.gates.mapM l.place)
  return ⟨out, l, l, 0, c.depth, out.depth⟩

/-- Every circuit of the size of a layout on the device can be translated. -/
theorem exists_translated (hsize : l.size = c.width) (hon : l.OnDevice d) : ∃ r, translated c d l = .ok r ∧
    List.Forall₂ l.Places c.gates r.circuit.gates ∧ r.swaps = 0 ∧ r.initial = l ∧ r.final = l := by
  obtain ⟨ps, hps⟩ : ∃ ps, c.gates.mapM l.place = .ok ps := by
    refine exists_mapM fun g hg => Layout.exists_place ?_
    rw [hsize]
    exact c.forall_mem_gates g hg
  have hplaces : List.Forall₂ l.Places c.gates ps := (forall₂_of_mapM hps).imp fun _ _ => Layout.places_of_place
  obtain ⟨last, hlast⟩ := Device.exists_maxNode (nodes_ne_nil (hsize ▸ Layout.size_le_of_onDevice hon))
  obtain ⟨empty, hempty⟩ := Circuit.exists_empty (Nat.succ_pos last)
  have hroom : ∀ p ∈ ps, ∀ q ∈ p.qubits, q < empty.width := by
    intro p hp q hq
    obtain ⟨g, -, hplaced⟩ := exists_of_forall₂ hplaces hp
    rw [(Circuit.empty_eq_ok hempty).1]
    exact Nat.lt_succ_of_le ((Device.maxNode_eq_ok hlast).2 q (hplaced.onDevice hon q hq))
  obtain ⟨out, hout, hgates⟩ := Circuit.exists_addAll hroom
  rw [(Circuit.empty_eq_ok hempty).2, List.nil_append] at hgates
  refine ⟨⟨out, l, l, 0, c.depth, out.depth⟩, ?_, hgates ▸ hplaces, rfl, rfl, rfl⟩
  simp only [translated, hlast, hps, Circuit.ofGates, hempty, hout, bind, Except.bind]
  rfl

omit [Source σ] in
/-- Gates that are only put out are put out one after the other. -/
theorem foldlM_of_emit {f : Transit × σ → Gate → Except Error (Transit × σ)} {gs ps : List Gate} {b : Budget}
    {out out' : Circuit} {s : σ}
    (hf : ∀ g ∈ gs, OnlyEmits f l g)
    (hps : gs.mapM l.place = .ok ps) (hout : out.addAll ps = .ok out') :
    gs.foldlM f (⟨l, b, out⟩, s) = .ok (⟨l, b, out'⟩, s) := by
  induction gs generalizing ps out with
  | nil =>
    cases hps
    cases hout
    rfl
  | cons g gs ih =>
    obtain ⟨hg, hgs⟩ := List.forall_mem_cons.mp hf
    rw [List.mapM_cons] at hps
    obtain ⟨p, hp, hps⟩ := bind_eq_ok.mp hps
    obtain ⟨ps, hrest, hps⟩ := bind_eq_ok.mp hps
    cases hps
    obtain ⟨out₁, hadd, hout⟩ := bind_eq_ok.mp hout
    have hemit : Transit.emit ⟨l, b, out⟩ g = .ok ⟨l, b, out₁⟩ :=
      bind_eq_ok.mpr ⟨p, hp, bind_eq_ok.mpr ⟨out₁, hadd, rfl⟩⟩
    rw [List.foldlM_cons, hg _ rfl, hemit]
    exact ih hgs hrest hout

omit [Source σ] in
/-- A loop that only puts out the gates of a circuit, from an empty register, makes the translation. -/
theorem exists_register_of_translated (h : translated c d l = .ok r) : ∃ last out, d.maxNode = .ok last ∧
    Circuit.empty (last + 1) = .ok out ∧
    ∀ {f : Transit × σ → Gate → Except Error (Transit × σ)}, (∀ g ∈ c.gates, OnlyEmits f l g) →
      ∀ (limit : Nat) (s : σ),
        (c.gates.foldlM f (⟨l, ⟨limit, 0⟩, out⟩, s) >>= fun st => .ok (summary c l st.1)) = .ok r := by
  obtain ⟨last, hlast, h⟩ := bind_eq_ok.mp h
  obtain ⟨ps, hps, h⟩ := bind_eq_ok.mp h
  obtain ⟨out', hout', h⟩ := bind_eq_ok.mp h
  obtain ⟨out, hout, hadd⟩ := bind_eq_ok.mp hout'
  refine ⟨last, out, hlast, hout, ?_⟩
  intro f hf limit s
  exact bind_eq_ok.mpr ⟨_, foldlM_of_emit hf hps hadd, h⟩

theorem routeWith_of_inPlace (hd : d.InWords) {initial : Option Layout} (hs : IsStart c d initial l)
    (hsize : l.size = c.width) (hon : l.OnDevice d) {x : Binary64} (hx : x.isAmount = true)
    (hc : ∀ g ∈ c.gates, InPlace d l g) (s : σ) (h : translated c d l = .ok r) :
    routeWith x s c d initial = .ok r := by
  have hw : c.width ≤ d.nodes.length := hsize ▸ Layout.size_le_of_onDevice hon
  have hi : ∀ l', initial = some l' → l'.size = c.width ∧ l'.OnDevice d := by
    rintro l' rfl
    obtain rfl : l = l' := hs
    exact ⟨hsize, hon⟩
  obtain ⟨limit, hb, -⟩ := exists_budget (n := c.size) hx
  obtain ⟨last, out, hlast, hout, hloop⟩ := exists_register_of_translated h
  have hgates := hloop (fun g hg => (hc g hg).step) limit s
  rw [routeWith_eq]
  exact bind_eq_ok.mpr ⟨(), checkInputs_of_fits hw hi, bind_eq_ok.mpr ⟨_, hb, bind_eq_ok.mpr ⟨l,
    firstLayout_of_isStart hs hw, bind_eq_ok.mpr ⟨_, Routed.registerSize_of_maxNode hd hon hw hlast,
      bind_eq_ok.mpr ⟨out, hout, hgates⟩⟩⟩⟩⟩

theorem routePinnedWith_of_inPlace (hd : d.InWords) {request : Request} (hr : request.layout c d = .ok l)
    {x : Binary64} (hx : x.isAmount = true) (hc : ∀ g ∈ c.gates, InPlace d l g) (s : σ)
    (h : translated c d l = .ok r) : routePinnedWith x s request c d = .ok r := by
  obtain ⟨limit, hb, -⟩ := exists_budget (n := c.size) hx
  obtain ⟨last, out, hlast, hout, hloop⟩ := exists_register_of_translated h
  have hgates := hloop (fun g hg => (hc g hg).pinnedStep) limit s
  rw [← hd.succ (Device.maxNode_eq_ok hlast).1] at hout
  rw [routePinnedWith_eq]
  exact bind_eq_ok.mpr ⟨l, hr, bind_eq_ok.mpr ⟨_, hb, bind_eq_ok.mpr ⟨last, hlast,
    bind_eq_ok.mpr ⟨out, hout, hgates⟩⟩⟩⟩

/-- What took no SWAP was in place. -/
theorem inPlace_of_swaps_eq_zero {x : Binary64} {s : σ} {initial : Option Layout}
    (h : routeWith x s c d initial = .ok r) (hr : r.swaps = 0) : ∀ g ∈ c.gates, InPlace d r.initial g := by
  obtain ⟨-, -, -, bs, hbs, -⟩ := routeWith_spec h
  have hnil : ∀ b ∈ bs, b.inserted = [] := by
    rw [← List.flatMap_eq_nil_iff, ← List.length_eq_zero_iff, ← hbs.swaps]
    exact hr
  have hparts : ∀ b ∈ bs, b.before = [] ∧ b.behind = [] := fun b hb => List.append_eq_nil_iff.mp (hnil b hb)
  have hrestores : ∀ b ∈ bs, b.Restores d r.initial := by
    intro b hb
    obtain ⟨hbefore, hbehind⟩ := hparts b hb
    exact ⟨by rw [hbefore, hbehind, List.reverse_nil], fun hne => absurd hbefore hne⟩
  intro g hg
  rw [← hbs.logical] at hg
  obtain ⟨b, hb, rfl⟩ := List.mem_map.mp hg
  exact inPlace_of_fits (hbs.run.fits_of_restores hrestores hb) (hparts b hb).1

/-- What is in place takes none. -/
theorem swaps_eq_zero_of_inPlace {x : Binary64} {s : σ} {initial : Option Layout}
    (h : routeWith x s c d initial = .ok r) (hc : ∀ g ∈ c.gates, InPlace d r.initial g) : r.swaps = 0 := by
  rw [routeWith_eq] at h
  obtain ⟨_, -, h⟩ := bind_eq_ok.mp h
  obtain ⟨budget, hb, h⟩ := bind_eq_ok.mp h
  obtain ⟨start, -, h⟩ := bind_eq_ok.mp h
  obtain ⟨_, -, h⟩ := bind_eq_ok.mp h
  obtain ⟨out, -, h⟩ := bind_eq_ok.mp h
  obtain ⟨st, hst, h⟩ := bind_eq_ok.mp h
  cases h
  have hkept : st.1.layout = start ∧ st.1.budget.used = 0 := by
    refine foldlM_keeps (P := fun st => st.1.layout = start ∧ st.1.budget.used = 0) ?_ ⟨rfl, used_of_ofFactor hb⟩ hst
    intro st₁ g hg st₂ hl hstep
    rw [(hc g hg).step st₁ hl.1] at hstep
    obtain ⟨t, hemit, hstep⟩ := bind_eq_ok.mp hstep
    cases hstep
    obtain ⟨-, -, -, hlayout, hbudget, -⟩ := Transit.emit_eq_ok hemit
    exact ⟨hlayout.trans hl.1, (congrArg Budget.used hbudget).trans hl.2⟩
  exact hkept.2

/-- The qubits of an interaction that has been routed were linked at first. -/
theorem linked_of_route {x : Binary64} {s : σ} {initial : Option Layout} (h : routeWith x s c d initial = .ok r)
    (hg : g ∈ c.gates) {p q : Nat} (he : r.initial.ends g = some (p, q)) : d.Linked p q := by
  obtain ⟨-, -, -, bs, hbs, -⟩ := routeWith_spec h
  rw [← hbs.logical] at hg
  obtain ⟨b, hb, rfl⟩ := List.mem_map.mp hg
  obtain ⟨n, hn⟩ := List.mem_iff_getElem?.mp hb
  obtain ⟨hgathered, p', q', he', hadj⟩ := (hbs.run.fits_of_getElem? hn).gathers (Layout.ends_eq_some.mp he).1
  have hbefore := Layout.ends_after he (((bs.take n).flatMap Block.inserted) ++ b.before)
  rw [Layout.after_append] at hbefore
  cases hbefore.symm.trans he'
  have hcoupled : ∀ x ∈ ((bs.take n).flatMap Block.inserted) ++ b.before, d.adjacent x.a x.b = true := by
    refine List.forall_mem_append.mpr ⟨fun x hx => ?_, hgathered⟩
    obtain ⟨b', hb', hx⟩ := List.mem_flatMap.mp hx
    obtain ⟨m, hm⟩ := List.mem_iff_getElem?.mp (List.mem_of_mem_take hb')
    exact (hbs.run.fits_of_getElem? hm).coupled x hx
  have hp := Layout.linked_carry hcoupled p
  have hq := Layout.linked_carry hcoupled q
  exact hp.trans ((Device.linked_of_adjacent hadj).trans hq.symm)

/-! ## Routed circuits -/

/-- Nothing that is put out is too wide. -/
theorem BlocksOf.not_isTooWide {bs : List Block} (h : BlocksOf d c r bs) (hl : r.initial.OnDevice d)
    (hg : g ∈ r.circuit.gates) : ¬ g.IsTooWide := by
  obtain ⟨b, m, -, hfits, hg⟩ := h.exists_fits hl hg
  rcases Block.mem_gates.mp hg with rfl | ⟨x, -, rfl⟩
  · obtain ⟨k, hk, -⟩ := hfits.kind
    have hw := Gate.not_isTooWide_of_kind hk
    unfold Gate.IsTooWide at hw ⊢
    rwa [hfits.placed.op, hfits.placed.length]
  · exact Gate.not_isTooWide_of_isInteraction (.inr (.inr rfl))

/-- A routed circuit is in place when every physical qubit is taken for itself. -/
theorem inPlace_of_route {o : Options} {initial : Option Layout} {n : Nat} (hd : d.InWords)
    (hn : d.nodes = List.range n) (h : route o c d initial = .ok r) :
    r.circuit.width = n ∧ ∀ g ∈ r.circuit.gates, InPlace d (.identity n) g := by
  obtain ⟨⟨bs, hbs⟩, -, hon, last, hlast, hwidth⟩ := grounded_of_route hd h
  have hmem : ∀ q, q ∈ d.nodes ↔ q < n := by
    intro q
    rw [hn, List.mem_range]
  constructor
  · obtain ⟨hm, hle⟩ := Device.maxNode_eq_ok hlast
    have hlt := (hmem last).mp hm
    have := hle (n - 1) ((hmem _).mpr (by omega))
    omega
  · intro g hg
    refine ⟨hbs.not_isTooWide hon hg, fun hi => ?_⟩
    obtain ⟨p, q, hpq, hadj⟩ := hbs.joins hon hg hi
    obtain ⟨hp, hq⟩ := Device.mem_nodes_of_adjacent hadj
    rw [hmem] at hp hq
    refine ⟨p, q, Layout.ends_eq_some.mpr ⟨hi, p, q, hpq, ?_, ?_⟩, hadj⟩
    · exact Layout.identity_eq_some.mpr ⟨hp, rfl⟩
    · exact Layout.identity_eq_some.mpr ⟨hq, rfl⟩

/-- On inputs that fit, routing inserts no SWAP exactly when every gate is in place on the layout that it starts from,
    whatever the budget and the seed. It then only translates the circuit, and routing with that layout requested does
    the same. What has been routed is in place, so on a device with qubits 0, 1, 2, … it is routed to itself. -/
theorem in_place_is_translated {d : Device} (hd : d.InWords) :
    (∀ {o : Options} {c : Circuit} {initial : Option Layout} {l : Layout}, o.swapFactor.isAmount = true →
      IsStart c d initial l → l.size = c.width → l.OnDevice d →
      ((∃ r, route o c d initial = .ok r ∧ r.swaps = 0) ↔ ∀ g ∈ c.gates, InPlace d l g) ∧
      ∀ r, route o c d initial = .ok r → r.swaps = 0 →
        List.Forall₂ l.Places c.gates r.circuit.gates ∧ r.initial = l ∧ r.final = l ∧
        ∀ (o' : Options) (entries : List (Nat × Nat)), o'.swapFactor.isAmount = true →
          (∀ i p : Nat, (i, p) ∈ Request.ofEntries entries ↔ l.placement[i]? = some p) →
          routePinned o' (.ofEntries entries) c d = .ok r) ∧
    ∀ {o o' : Options} {c : Circuit} {initial : Option Layout} {r : Routed} {n : Nat}, d.nodes = List.range n →
      route o c d initial = .ok r → o'.swapFactor.isAmount = true →
      ∃ r', route o' r.circuit d none = .ok r' ∧ r'.circuit.gates = r.circuit.gates ∧ r'.swaps = 0 := by
  refine ⟨?_, ?_⟩
  · intro o c initial l hf hs hsize hon
    obtain ⟨r₀, htr, hplaces, hswaps, hinitial, hfinal⟩ := exists_translated hsize hon
    have hroute : (∀ g ∈ c.gates, InPlace d l g) → route o c d initial = .ok r₀ :=
      fun hc => routeWith_of_inPlace hd hs hsize hon hf hc _ htr
    have hback : ∀ r, route o c d initial = .ok r → r.swaps = 0 → ∀ g ∈ c.gates, InPlace d l g := by
      intro r hr h0
      rw [hs.unique (routeWith_spec hr).2.1]
      exact inPlace_of_swaps_eq_zero hr h0
    refine ⟨⟨?_, ?_⟩, ?_⟩
    · rintro ⟨r, hr, h0⟩
      exact hback r hr h0
    · intro hc
      exact ⟨r₀, hroute hc, hswaps⟩
    · intro r hr h0
      have hc := hback r hr h0
      obtain rfl : r₀ = r := by
        rw [hroute hc] at hr
        exact Except.ok.inj hr
      refine ⟨hplaces, hinitial, hfinal, ?_⟩
      intro o' entries hf' hentries
      have hrequest := Request.layout_of_mem_iff (Request.keys_ofEntries_ascending entries) hsize hon hentries
      exact routePinnedWith_of_inPlace hd hrequest hf' hc _ htr
  · intro o o' c initial r n hn h hf'
    obtain ⟨hwidth, hc⟩ := inPlace_of_route hd hn h
    have hsize : (Layout.identity n).size = r.circuit.width := (Layout.size_identity n).trans hwidth.symm
    have hon := Layout.onDevice_identity hn
    obtain ⟨r', htr, hplaces, hswaps, -, -⟩ := exists_translated hsize hon
    have hroute : route o' r.circuit d none = .ok r' :=
      routeWith_of_inPlace hd (isStart_identity hn hwidth) hsize hon hf' hc _ htr
    exact ⟨r', hroute, Layout.eq_of_forall₂_identity hplaces, hswaps⟩

/-- A qubit coupled to three others, and two more behind one of those. -/
def star : Device :=
  ⟨[0, 1, 2, 3, 4, 5], [⟨0, 1⟩, ⟨0, 2⟩, ⟨0, 3⟩, ⟨3, 4⟩, ⟨3, 5⟩], by decide, by decide, by decide⟩

/-- Interactions with qubit 0, and a barrier on two of the others. -/
def aroundZero : Circuit where
  width := 6
  entries := Circuit.number [⟨.cnot, [3, 0], [], by decide⟩, ⟨.barrier, [1, 2], [], by decide⟩,
    ⟨.cz, [0, 1], [], by decide⟩, ⟨.swap, [0, 2], [], by decide⟩]
  width_pos := by decide
  in_range := by decide

/-- No SWAP is needed, and none is allowed. With the qubits in reverse order it takes four, and what comes of
    that needs none again. -/
theorem in_place_is_translated_star : star.InWords ∧ (Binary64.ofFloat 0).isAmount = true ∧
    (∃ r, route { swapFactor := .ofFloat 0 } aroundZero star none = .ok r ∧ r.swaps = 0 ∧
      (∀ g ∈ aroundZero.gates, InPlace star (.identity 6) g) ∧
      List.Forall₂ (Layout.identity 6).Places aroundZero.gates r.circuit.gates ∧ r.final = .identity 6 ∧
      routePinned { seed := 1 } (.ofEntries [(5, 5), (3, 3), (2, 2), (0, 0), (4, 4), (1, 1)]) aroundZero star = .ok r) ∧
    ∃ r, route {} aroundZero star (some ⟨[5, 4, 3, 2, 1, 0], by decide⟩) = .ok r ∧ r.swaps = 4 ∧
      ∃ r', route { swapFactor := .ofFloat 0 } r.circuit star none = .ok r' ∧
        r'.circuit.gates = r.circuit.gates ∧ r'.swaps = 0 := by
  have hd : star.InWords := by unfold Device.InWords; decide
  have hzero : (Binary64.ofFloat 0).isAmount = true := by decide +kernel
  have hmany : (Binary64.ofFloat 64).isAmount = true := by decide +kernel
  obtain ⟨hin, hagain⟩ := in_place_is_translated hd
  obtain ⟨r, hr, hs⟩ := exists_ok_of_map (x := route { swapFactor := .ofFloat 0 } aroundZero star none)
    (f := (·.swaps)) (b := 0) (by decide +kernel)
  obtain ⟨r', hr', hs'⟩ := exists_ok_of_map (x := route {} aroundZero star (some ⟨[5, 4, 3, 2, 1, 0], by decide⟩))
    (f := (·.swaps)) (b := 4) (by decide +kernel)
  have hstart : IsStart aroundZero star none (.identity 6) := by
    show List.range 6 = star.nodes.take 6
    decide
  have hon : (Layout.identity 6).OnDevice star := by
    unfold Layout.OnDevice
    decide
  have hrequest : Request.layout (.ofEntries [(5, 5), (3, 3), (2, 2), (0, 0), (4, 4), (1, 1)]) aroundZero star =
      .ok (.identity 6) := by
    decide +kernel
  obtain ⟨hiff, hsame⟩ := hin (o := { swapFactor := .ofFloat 0 }) hzero hstart (by decide) hon
  obtain ⟨hplaces, -, hfinal, hpinned⟩ := hsame r hr hs
  have hentries := Request.mem_iff_of_layout (Request.keys_ofEntries_ascending _) hrequest
  exact ⟨hd, hzero, ⟨r, hr, hs, hiff.mp ⟨r, hr, hs⟩, hplaces, hfinal, hpinned { seed := 1 } _ hmany hentries⟩,
    r', hr', hs', hagain (n := 6) rfl hr' hzero⟩

end Routing

end CircuitMapping
