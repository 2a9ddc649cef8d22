/-
  CircuitMapping.Proofs.Routing.Course — where routing stands before each gate, were there no budget.

  An interaction whose qubits sit at some distance needs one SWAP less than that (`Device.swapsFor`). A `Course` is
  what routing moves from gate to gate besides the circuit put out: the layout, the source of draws, and the number of
  SWAPs needed so far. It has no budget, so it never stops.

  Bringing qubits together comes to one of four ends: they are coupled (`approach_of_adjacent`), in different
  components (`approach_of_not_linked`), or a chain along a path between them takes place (`approach_of_le`) or is not
  covered by the budget (`approach_of_lt`). So routing follows its course (`Follows`) from one gate to the next
  (`step_follows`), until a gate is too wide, has qubits in different components or needs too many SWAPs.
-/
import CircuitMapping.Proofs.Device.Components
import CircuitMapping.Proofs.Device.Extent
import CircuitMapping.Proofs.Routing.Replay

namespace CircuitMapping

open Success

/-! ## What an interaction needs -/

/-- The SWAPs that bring the qubits of a gate together: one less than their distance, none for other gates. -/
def Device.swapsFor (d : Device) (l : Layout) (g : Gate) : Nat :=
  match l.ends g with
  | some (p, q) => (d.hops? p q).getD 0 - 1
  | none => 0

namespace Device

variable {d : Device} {l : Layout} {g : Gate} {p q k : Nat}

theorem swapsFor_of_hops? (he : l.ends g = some (p, q)) (h : d.hops? p q = some k) : d.swapsFor l g = k - 1 := by
  simp [swapsFor, he, h]

theorem swapsFor_of_adjacent (he : l.ends g = some (p, q)) (h : d.adjacent p q = true) : d.swapsFor l g = 0 := by
  rw [swapsFor_of_hops? he (hops?_of_adjacent h)]

theorem swapsFor_of_ends_eq_none (he : l.ends g = none) : d.swapsFor l g = 0 := by simp [swapsFor, he]

/-- Only linked qubits need SWAPs, and only if they are not coupled. -/
theorem exists_ends_of_swapsFor_pos (h : 0 < d.swapsFor l g) :
    ∃ p q, l.ends g = some (p, q) ∧ d.adjacent p q = false ∧ d.Linked p q := by
  match he : l.ends g with
  | none =>
    rw [swapsFor_of_ends_eq_none he] at h
    omega
  | some (p, q) =>
    refine ⟨p, q, rfl, ?_, ?_⟩
    · by_contra hadj
      rw [swapsFor_of_adjacent he (by simpa using hadj)] at h
      omega
    · by_contra hl
      unfold swapsFor at h
      simp only [he] at h
      cases hk : d.hops? p q with
      | none => simp [hk] at h
      | some k => exact hl (linked_of_hops? hk)

end Device

/-! ## Bringing two qubits together -/

/-- A layout of `n` qubits on the device, a register with room for all nodes and a budget that is not exceeded. -/
structure Transit.Sound (d : Device) (n : Nat) (t : Transit) : Prop where
  size : t.layout.size = n
  onDevice : t.layout.OnDevice d
  room : ∀ q ∈ d.nodes, q < t.out.width
  within : t.budget.used ≤ t.budget.limit

/-- So is the state before the first gate, on a register that ends at the highest node. -/
theorem Transit.sound_start {d : Device} {n last : Nat} {l : Layout} {budget : Budget} {out : Circuit}
    (hsize : l.size = n) (hl : l.OnDevice d) (hb : budget.used = 0) (hlast : d.maxNode = .ok last)
    (hout : Circuit.empty (last + 1) = .ok out) : Transit.Sound d n ⟨l, budget, out⟩ where
  size := hsize
  onDevice := hl
  room q hq := by
    rw [(Circuit.empty_eq_ok hout).1]
    exact Nat.lt_succ_of_le ((Device.maxNode_eq_ok hlast).2 q hq)
  within := by
    rw [hb]
    exact Nat.zero_le _

theorem Transit.Sound.exchanged {d : Device} {n : Nat} {t t' : Transit} (h : t.Sound d n) {xs : List Exchange}
    (hx : t.Exchanged xs t') (hc : ∀ x ∈ xs, d.adjacent x.a x.b = true)
    (hb : t.budget.used + xs.length ≤ t.budget.limit) : t'.Sound d n where
  size := by rw [hx.layout, Layout.size_after, h.size]
  onDevice := by
    rw [hx.layout]
    exact Layout.onDevice_after h.onDevice hc
  room := by
    rw [hx.width]
    exact h.room
  within := by rwa [hx.used, hx.limit]

/-- A gate on logical qubits of the layout can be put out. -/
theorem Transit.Sound.exists_emit {d : Device} {n : Nat} {t : Transit} (h : t.Sound d n) {g : Gate}
    (hg : ∀ q ∈ g.qubits, q < n) : ∃ t', t.emit g = .ok t' ∧ t'.Sound d n ∧ t'.layout = t.layout ∧
      t'.budget = t.budget := by
  obtain ⟨p, hp⟩ := Layout.exists_place (l := t.layout) (by rwa [h.size])
  have hroom : ∀ q ∈ p.qubits, q < t.out.width := fun q hq =>
    h.room q ((Layout.places_of_place hp).onDevice h.onDevice q hq)
  obtain ⟨out, hout⟩ := Circuit.exists_add hroom
  have he : t.emit g = .ok { t with out } := bind_eq_ok.mpr ⟨p, hp, bind_eq_ok.mpr ⟨out, hout, rfl⟩⟩
  refine ⟨_, he, ⟨h.size, h.onDevice, ?_, h.within⟩, rfl, rfl⟩
  rw [(Circuit.add_eq_ok hout).2.1]
  exact h.room

namespace Routing

variable {σ : Type} [Source σ] {d : Device} {n : Nat} {t : Transit} {g : Gate} {p q : Nat}

theorem approach_of_adjacent (he : t.layout.ends g = some (p, q)) (hadj : d.adjacent p q = true) (s : σ) :
    approach d g t s = .ok (t, [], s) := by
  obtain ⟨-, a, b, hab, hp, hq⟩ := Layout.ends_eq_some.mp he
  unfold approach
  simp only [hab, Layout.physical_eq_ok.mpr hp, Layout.physical_eq_ok.mpr hq, bind, Except.bind]
  exact if_pos hadj

theorem approach_of_not_adjacent (he : t.layout.ends g = some (p, q)) (hadj : d.adjacent p q = false) (s : σ) :
    approach d g t s = d.shortestPath p q s >>= fun r =>
      match t.walk g r.1 with
      | (_, .error e) => throw e
      | (t, .ok swaps) => return (t, swaps, r.2) := by
  obtain ⟨-, a, b, hab, hp, hq⟩ := Layout.ends_eq_some.mp he
  unfold approach
  simp only [hab, Layout.physical_eq_ok.mpr hp, Layout.physical_eq_ok.mpr hq, bind, Except.bind]
  exact if_neg (by simp [hadj])

theorem approach_of_not_linked (h : t.Sound d n) (he : t.layout.ends g = some (p, q)) (hl : ¬ d.Linked p q) (s : σ) :
    approach d g t s = .error (.noPath p q) := by
  obtain ⟨hp, hq⟩ := Layout.mem_nodes_of_ends h.onDevice he
  have hadj : d.adjacent p q = false := by
    by_contra hadj
    exact hl (Device.linked_of_adjacent (by simpa using hadj))
  rw [approach_of_not_adjacent he hadj, Device.shortestPath_of_not_linked hp hq hl]
  rfl

/-- The chain that brings linked qubits together which are not coupled. -/
structure IsDetour (d : Device) (l : Layout) (g : Gate) (s : σ) (xs : List Exchange) (s' : σ) : Prop where
  path : ∃ p q path, l.ends g = some (p, q) ∧ d.adjacent p q = false ∧
    d.shortestPath p q s = .ok (path, s') ∧ xs.map Exchange.pair = Transit.chain path
  coupled : ∀ x ∈ xs, d.adjacent x.a x.b = true
  length : xs.length = d.swapsFor l g

theorem exists_detour {l : Layout} (h : l.OnDevice d) (he : l.ends g = some (p, q)) (hadj : d.adjacent p q = false)
    (hl : d.Linked p q) (s : σ) : ∃ xs s', IsDetour d l g s xs s' := by
  obtain ⟨hp, hq⟩ := Layout.mem_nodes_of_ends h he
  obtain ⟨k, hk⟩ := Device.exists_hops?_of_linked hq hl
  obtain ⟨path, s', hpath, hip, hlen⟩ := Device.shortestPath_of_hops? hp hq hk s
  obtain ⟨xs, hxs⟩ := Transit.exists_chain hip.nodup
  refine ⟨xs, s', ⟨p, q, path, he, hadj, hpath, hxs⟩, Transit.adjacent_of_mem_chain hip hxs, ?_⟩
  have := congrArg List.length hxs
  rw [List.length_map, Transit.length_chain, hlen] at this
  rw [this, Device.swapsFor_of_hops? he hk]
  omega

variable {s s' : σ} {xs : List Exchange}

theorem IsDetour.room (hd : IsDetour d t.layout g s xs s') (h : t.Sound d n) :
    ∀ x ∈ xs, x.a < t.out.width ∧ x.b < t.out.width := by
  intro x hx
  have hm := Device.mem_nodes_of_adjacent (hd.coupled x hx)
  exact ⟨h.room _ hm.1, h.room _ hm.2⟩

/-- A chain that the budget covers takes place. -/
theorem approach_of_le (h : t.Sound d n) (hd : IsDetour d t.layout g s xs s')
    (hb : t.budget.used + xs.length ≤ t.budget.limit) :
    ∃ t', approach d g t s = .ok (t', xs.map Exchange.pair, s') ∧ t.Exchanged xs t' := by
  obtain ⟨p, q, path, he, hadj, hpath, hxs⟩ := hd.path
  obtain ⟨t', ht, hx⟩ := Transit.swapAll_of_le g (hd.room h) hb
  refine ⟨t', ?_, hx⟩
  rw [hxs] at ht
  simp only [approach_of_not_adjacent he hadj, hpath, Transit.walk, ht, hxs, bind, Except.bind]
  rfl

/-- A chain that the budget does not cover is refused. -/
theorem approach_of_lt (h : t.Sound d n) (hd : IsDetour d t.layout g s xs s')
    (hb : t.budget.limit < t.budget.used + xs.length) :
    approach d g t s = .error (.swapBudget t.budget.limit (t.budget.limit + 1) g.text) := by
  obtain ⟨p, q, path, he, hadj, hpath, hxs⟩ := hd.path
  obtain ⟨t', ht⟩ := Transit.swapAll_of_lt g (hd.room h) h.within hb
  rw [hxs] at ht
  simp only [approach_of_not_adjacent he hadj, hpath, Transit.walk, ht, bind, Except.bind]
  rfl

/-! ## The course of routing -/

/-- Where routing stands between two gates. -/
structure Course (σ : Type) where
  layout : Layout
  source : σ
  /-- The SWAPs needed so far. -/
  swaps : Nat

namespace Course

/-- The course past one more gate. -/
def next (d : Device) (k : Course σ) (g : Gate) : Course σ :=
  match k.layout.ends g with
  | none => k
  | some (p, q) =>
    if d.adjacent p q then k
    else match d.shortestPath p q k.source with
      | .error _ => k
      | .ok (path, s) => ⟨(Transit.chain path).foldl (fun l x => l.swap x.1 x.2) k.layout, s,
          k.swaps + d.swapsFor k.layout g⟩

/-- The course past some gates. -/
def after (d : Device) (k : Course σ) (gs : List Gate) : Course σ := gs.foldl (next d) k

theorem after_concat (d : Device) (k : Course σ) (gs : List Gate) (g : Gate) :
    k.after d (gs ++ [g]) = (k.after d gs).next d g := List.foldl_append ..

variable {k : Course σ}

theorem next_of_ends_eq_none (he : k.layout.ends g = none) : k.next d g = k := by simp [next, he]

theorem next_of_adjacent (he : k.layout.ends g = some (p, q)) (hadj : d.adjacent p q = true) : k.next d g = k := by
  simp [next, he, hadj]

theorem next_of_isDetour (hd : IsDetour d k.layout g k.source xs s') :
    k.next d g = ⟨k.layout.after xs, s', k.swaps + xs.length⟩ := by
  obtain ⟨p, q, path, he, hadj, hpath, hxs⟩ := hd.path
  simp [next, he, hadj, hpath, ← hxs, ← Layout.after_eq_foldl, hd.length]

end Course

/-- Routing is where its course is, and has used what the course has needed. -/
structure Follows (d : Device) (n limit : Nat) (st : Transit × σ) (k : Course σ) : Prop where
  sound : st.1.Sound d n
  layout : st.1.layout = k.layout
  source : st.2 = k.source
  used : st.1.budget.used = k.swaps
  limit : st.1.budget.limit = limit

variable {st : Transit × σ} {k : Course σ} {limit : Nat}

omit [Source σ] in
theorem Follows.course_eq (h : Follows d n limit st k) : k = ⟨st.1.layout, st.2, st.1.budget.used⟩ := by
  rw [h.layout, h.source, h.used]

/-! ## One step -/

theorem step_of_isTooWide (h : g.IsTooWide) (st : Transit × σ) :
    step d st g = .error (.unsupported (.routing g.op g.qubits.length)) := by
  unfold step
  rw [Gate.kind_of_isTooWide h]
  rfl

theorem step_of_isInteraction (h : g.IsInteraction) (st : Transit × σ) :
    step d st g = approach d g st.1 st.2 >>= fun r => return (← r.1.emit g, r.2.2) := by
  obtain ⟨kind, hk⟩ := Gate.exists_kind (Gate.not_isTooWide_of_isInteraction h)
  unfold step
  rw [hk]
  simp only [bind, Except.bind]
  rw [if_pos ((Gate.needsAdjacency_iff hk).mpr h)]

/-- A gate that is no interaction is put out where it is. -/
theorem step_of_not_isInteraction (hw : ¬ g.IsTooWide) (h : ¬ g.IsInteraction) (st : Transit × σ) :
    step d st g = st.1.emit g >>= fun t => return (t, st.2) := by
  obtain ⟨kind, hk⟩ := Gate.exists_kind hw
  unfold step
  rw [hk]
  simp only [bind, Except.bind]
  rw [if_neg (fun hn => h ((Gate.needsAdjacency_iff hk).mp hn))]
  rfl

theorem step_of_not_linked (hf : Follows d n limit st k) (he : k.layout.ends g = some (p, q)) (hl : ¬ d.Linked p q) :
    step d st g = .error (.noPath p q) := by
  rw [← hf.layout] at he
  rw [step_of_isInteraction (Layout.ends_eq_some.mp he).1, approach_of_not_linked hf.sound he hl]
  rfl

theorem step_of_lt (hf : Follows d n limit st k) (hb : limit < k.swaps + d.swapsFor k.layout g) :
    step d st g = .error (.swapBudget limit (limit + 1) g.text) := by
  obtain rfl := hf.course_eq
  obtain rfl := hf.limit
  dsimp only at hb
  have hwithin := hf.sound.within
  obtain ⟨p, q, he, hadj, hl⟩ := Device.exists_ends_of_swapsFor_pos (d := d) (l := st.1.layout) (g := g) (by omega)
  obtain ⟨xs, s', hd⟩ := exists_detour hf.sound.onDevice he hadj hl st.2
  rw [step_of_isInteraction (Layout.ends_eq_some.mp he).1, approach_of_lt hf.sound hd (by rwa [hd.length])]
  rfl

/-- A gate that routing can take takes it one step further along its course. -/
theorem step_follows (hf : Follows d n limit st k) (hg : ∀ q ∈ g.qubits, q < n) (hw : ¬ g.IsTooWide)
    (hl : ∀ p q, k.layout.ends g = some (p, q) → d.Linked p q) (hb : k.swaps + d.swapsFor k.layout g ≤ limit) :
    ∃ st', step d st g = .ok st' ∧ Follows d n limit st' (k.next d g) := by
  obtain rfl := hf.course_eq
  obtain rfl := hf.limit
  dsimp only at hl hb
  match he : st.1.layout.ends g with
  | none =>
    have hi : ¬ g.IsInteraction := by
      intro hi
      obtain ⟨p, q, h⟩ := Layout.exists_ends (l := st.1.layout) hi (by rwa [hf.sound.size])
      rw [he] at h
      cases h
    obtain ⟨t, ht, hs, hl, hb⟩ := hf.sound.exists_emit hg
    rw [Course.next_of_ends_eq_none he]
    refine ⟨(t, st.2), ?_, hs, hl, rfl, congrArg _ hb, congrArg _ hb⟩
    rw [step_of_not_isInteraction hw hi, ht]
    rfl
  | some (p, q) =>
    have hi := (Layout.ends_eq_some.mp he).1
    by_cases hadj : d.adjacent p q = true
    · obtain ⟨t, ht, hs, hl, hb⟩ := hf.sound.exists_emit hg
      rw [Course.next_of_adjacent he hadj]
      refine ⟨(t, st.2), ?_, hs, hl, rfl, congrArg _ hb, congrArg _ hb⟩
      rw [step_of_isInteraction hi, approach_of_adjacent he hadj]
      exact bind_eq_ok.mpr ⟨_, rfl, bind_eq_ok.mpr ⟨t, ht, rfl⟩⟩
    · obtain ⟨xs, s', hd⟩ := exists_detour hf.sound.onDevice he (by simpa using hadj) (hl p q he) st.2
      rw [← hd.length] at hb
      obtain ⟨t, ht, hx⟩ := approach_of_le hf.sound hd hb
      obtain ⟨t', ht', hs, hl, hb'⟩ := (hf.sound.exchanged hx hd.coupled hb).exists_emit hg
      rw [Course.next_of_isDetour hd]
      refine ⟨(t', s'), ?_, hs, hl.trans hx.layout, rfl, ?_, ?_⟩
      · rw [step_of_isInteraction hi, ht]
        exact bind_eq_ok.mpr ⟨_, rfl, bind_eq_ok.mpr ⟨t', ht', rfl⟩⟩
      · rw [hb', hx.used]
      · rw [hb', hx.limit]

end Routing

end CircuitMapping
