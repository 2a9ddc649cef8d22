/-
  CircuitMapping.Proofs.Routing.RoundTrips — what routing on a requested layout costs, whichever paths are drawn.

  Every gate finds the requested layout, so the SWAPs that it takes are told by distances on that layout alone: twice
  one less than the distance, there and back (`Device.roundTrips`). Draws choose paths, and all shortest paths between
  two qubits are equally long. So the gates of a circuit are routed if they are not too wide, their qubits are linked
  and the budget covers all round trips (`foldlM_of_affords`), which is also necessary (`affords_of_foldlM`); and
  where they are not, every source of draws leads to the same refusal (`foldlM_eq_error_of_rests`).

  Nothing before the first gate is drawn, so two sources route a circuit with the same number of SWAPs or fail alike
  (`routePinnedWith_agree`).
-/
import CircuitMapping.Proofs.Routing.Restored

namespace CircuitMapping

open Success

/-- The SWAPs that bring the qubits of each gate together and back again. -/
def Device.roundTrips (d : Device) (l : Layout) : List Gate → Nat
  | [] => 0
  | g :: gs => 2 * d.swapsFor l g + roundTrips d l gs

@[simp] theorem Device.roundTrips_nil (d : Device) (l : Layout) : d.roundTrips l [] = 0 := rfl

@[simp] theorem Device.roundTrips_cons (d : Device) (l : Layout) (g : Gate) (gs : List Gate) :
    d.roundTrips l (g :: gs) = 2 * d.swapsFor l g + d.roundTrips l gs := rfl

namespace Routing

variable {σ : Type} [Source σ] {d : Device} {g : Gate} {gs : List Gate} {p q n limit k : Nat} {start : Layout}
  {st st' : Transit × σ} {e : Error}

/-- What gates ask for to be routed on the layout `start` when `used` SWAPs have been inserted. -/
structure Affords (d : Device) (start : Layout) (limit used : Nat) (gs : List Gate) : Prop where
  narrow : ∀ g ∈ gs, ¬ g.IsTooWide
  linked : ∀ g ∈ gs, ∀ p q, start.ends g = some (p, q) → d.Linked p q
  covered : used + d.roundTrips start gs ≤ limit

theorem Affords.tail (h : Affords d start limit k (g :: gs)) :
    Affords d start limit (k + 2 * d.swapsFor start g) gs where
  narrow h' hm := h.narrow h' (List.mem_cons_of_mem g hm)
  linked h' hm := h.linked h' (List.mem_cons_of_mem g hm)
  covered := by
    have := h.covered
    rw [Device.roundTrips_cons] at this
    omega

theorem Refused.not_affords (h : Refused d start limit k g e) : ¬ Affords d start limit k (g :: gs) := by
  intro ha
  have hm := List.mem_cons_self (a := g) (l := gs)
  cases h with
  | tooWide hw => exact ha.narrow g hm hw
  | apart he hl => exact hl (ha.linked g hm _ _ he)
  | overBudget hlt =>
    have := ha.covered
    rw [Device.roundTrips_cons] at this
    omega

/-! ## Gates -/

/-- Whether a gate is refused does not depend on the source of draws. -/
theorem pinnedStep_of_refused (h : Rests d n limit start st k) (hg : ∀ q ∈ g.qubits, q < n)
    (hr : Refused d start limit k g e) : pinnedStep d st g = .error e := by
  cases hr with
  | tooWide hw => exact pinnedStep_of_isTooWide hw st
  | apart he hl =>
    rw [← h.layout] at he
    exact pinnedStep_of_approach_eq_error (Layout.ends_eq_some.mp he).1 (approach_of_not_linked h.sound he hl st.2)
  | overBudget hlt =>
    have hwithin := h.sound.within
    rw [h.used, h.limit] at hwithin
    obtain ⟨p, q, he, hadj, hl⟩ := Device.exists_ends_of_swapsFor_pos (d := d) (l := start) (g := g) (by omega)
    obtain ⟨xs, s', hd⟩ := exists_detour (h.layout ▸ h.sound.onDevice) he hadj hl st.2
    rcases pinnedStep_of_isDetour h hd hg with ⟨st', -, hr⟩ | ⟨-, herr⟩
    · have hwithin' := hr.sound.within
      rw [hr.used, hr.limit] at hwithin'
      omega
    · exact herr

theorem not_refused_of_pinnedStep (h : Rests d n limit start st k) (hg : ∀ q ∈ g.qubits, q < n)
    (hok : pinnedStep d st g = .ok st') : ¬ Refused d start limit k g e := by
  intro hr
  rw [pinnedStep_of_refused h hg hr] at hok
  cases hok

theorem foldlM_of_affords (h : Rests d n limit start st k) (hg : ∀ g ∈ gs, ∀ q ∈ g.qubits, q < n)
    (ha : Affords d start limit k gs) :
    ∃ st', gs.foldlM (pinnedStep d) st = .ok st' ∧ Rests d n limit start st' (k + d.roundTrips start gs) := by
  induction gs generalizing st k with
  | nil => exact ⟨st, rfl, h⟩
  | cons g gs ih =>
    obtain ⟨hq, hgs⟩ := List.forall_mem_cons.mp hg
    rcases pinnedStep_cases h hq with ⟨u, hu, hr⟩ | ⟨e, href, -⟩
    · obtain ⟨st', hst', hr'⟩ := ih hr hgs ha.tail
      rw [Nat.add_assoc] at hr'
      exact ⟨st', bind_eq_ok.mpr ⟨u, hu, hst'⟩, hr'⟩
    · exact absurd ha href.not_affords

theorem affords_of_foldlM (h : Rests d n limit start st k) (hg : ∀ g ∈ gs, ∀ q ∈ g.qubits, q < n)
    (hok : gs.foldlM (pinnedStep d) st = .ok st') : Affords d start limit k gs := by
  induction gs generalizing st k with
  | nil =>
    have hwithin := h.sound.within
    rw [h.used, h.limit] at hwithin
    exact ⟨List.forall_mem_nil _, List.forall_mem_nil _, hwithin⟩
  | cons g gs ih =>
    obtain ⟨hq, hgs⟩ := List.forall_mem_cons.mp hg
    rcases pinnedStep_cases h hq with ⟨u, hu, hr⟩ | ⟨e, -, he⟩
    · obtain ⟨v, hv, hok⟩ := bind_eq_ok.mp hok
      rw [hu] at hv
      cases hv
      have hrest := ih hr hgs hok
      refine ⟨List.forall_mem_cons.mpr ⟨?_, hrest.narrow⟩, List.forall_mem_cons.mpr ⟨?_, hrest.linked⟩, ?_⟩
      · exact fun hw => not_refused_of_pinnedStep h hq hu (.tooWide hw)
      · exact fun p q he => Classical.byContradiction fun hl => not_refused_of_pinnedStep h hq hu (.apart he hl)
      · have := hrest.covered
        rw [Device.roundTrips_cons]
        omega
    · rw [List.foldlM_cons, he] at hok
      cases hok

/-- Two sources of draws: where gates are refused with the one, they are refused alike with the other. -/
theorem foldlM_eq_error_of_rests (h : Rests d n limit start st k) (h' : Rests d n limit start st' k)
    (hg : ∀ g ∈ gs, ∀ q ∈ g.qubits, q < n) (herr : gs.foldlM (pinnedStep d) st = .error e) :
    gs.foldlM (pinnedStep d) st' = .error e := by
  induction gs generalizing st st' k with
  | nil => cases herr
  | cons g gs ih =>
    obtain ⟨hq, hgs⟩ := List.forall_mem_cons.mp hg
    rcases pinnedStep_cases h hq with ⟨u, hu, hr⟩ | ⟨e', href, he⟩
    · rcases pinnedStep_cases h' hq with ⟨u', hu', hr'⟩ | ⟨e', href, -⟩
      · rcases bind_eq_error.mp herr with herr | ⟨v, hv, herr⟩
        · rw [hu] at herr
          cases herr
        · rw [hu] at hv
          cases hv
          exact bind_eq_error.mpr (.inr ⟨u', hu', ih hr hr' hgs herr⟩)
      · exact absurd href (not_refused_of_pinnedStep h hq hu)
    · rw [List.foldlM_cons, he] at herr
      cases herr
      exact bind_eq_error.mpr (.inl (pinnedStep_of_refused h' hq href))

/-! ## Whole circuits -/

variable {c : Circuit} {request : Request} {x : Binary64} {budget : Budget}

/-- On an accepted request and with a budget, routing takes the gates one after the other, each on that layout. -/
theorem exists_rests (hd : d.InWords) (hl : request.layout c d = .ok start)
    (hb : Budget.ofFactor x c.size = .ok budget) : ∃ out, ∀ s : σ,
      Rests d start.size budget.limit start ((⟨start, budget, out⟩, s) : Transit × σ) 0 ∧
      routePinnedWith x s request c d = c.gates.foldlM (pinnedStep d) (⟨start, budget, out⟩, s) >>= fun st =>
        .ok (summary c start st.1) := by
  obtain ⟨-, -, hon⟩ := Request.layout_eq_ok hl
  obtain ⟨p, hp⟩ := List.exists_mem_of_length_pos (Nat.lt_of_lt_of_le c.width_pos (Request.width_le_size hl))
  obtain ⟨last, hlast⟩ := Device.exists_maxNode (List.ne_nil_of_mem (hon p hp))
  obtain ⟨out, hout⟩ := Circuit.exists_empty (Nat.succ_pos last)
  have hused := used_of_ofFactor hb
  have hs : Transit.Sound d start.size ⟨start, budget, out⟩ := Transit.sound_start rfl hon hused hlast hout
  refine ⟨out, fun s => ⟨⟨hs, rfl, hused, rfl⟩, ?_⟩⟩
  rw [routePinnedWith_eq, hl, hb, hlast]
  simp only [bind, Except.bind, hd.succ (Device.maxNode_eq_ok hlast).1, hout]

omit [Source σ] in
theorem forall_lt_size (hl : request.layout c d = .ok start) : ∀ g ∈ c.gates, ∀ q ∈ g.qubits, q < start.size :=
  fun g hg q hq => Nat.lt_of_lt_of_le (c.forall_mem_gates g hg q hq) (Request.width_le_size hl)

/-- Routing on an accepted request succeeds exactly when the budget covers the round trips of gates that can be
    routed, and then that many SWAPs are inserted. -/
theorem routePinnedWith_eq_ok_iff (hd : d.InWords) (hl : request.layout c d = .ok start)
    (hb : Budget.ofFactor x c.size = .ok budget) (s : σ) :
    ((∃ r, routePinnedWith x s request c d = .ok r) ↔ Affords d start budget.limit 0 c.gates) ∧
      ∀ r, routePinnedWith x s request c d = .ok r → r.swaps = d.roundTrips start c.gates := by
  obtain ⟨out, hrests⟩ := exists_rests (σ := σ) hd hl hb
  obtain ⟨h, hroute⟩ := hrests s
  have hg := forall_lt_size hl
  rw [hroute]
  refine ⟨?_, ?_⟩
  · rw [exists_bind_ok_iff]
    refine ⟨fun ⟨st, hst⟩ => affords_of_foldlM h hg hst, fun ha => ?_⟩
    obtain ⟨st, hst, -⟩ := foldlM_of_affords h hg ha
    exact ⟨st, hst⟩
  · intro r hr
    obtain ⟨st, hst, hr⟩ := bind_eq_ok.mp hr
    cases hr
    obtain ⟨st', hst', hr⟩ := foldlM_of_affords h hg (affords_of_foldlM h hg hst)
    rw [hst] at hst'
    cases hst'
    exact hr.used.trans (Nat.zero_add _)

/-- The error does not depend on the source of draws, be the request accepted or not. -/
theorem routePinnedWith_eq_error_of (hd : d.InWords) {s : σ} (s' : σ)
    (herr : routePinnedWith x s request c d = .error e) : routePinnedWith x s' request c d = .error e := by
  cases hl : request.layout c d with
  | error e' =>
    rw [routePinnedWith_eq, hl] at herr ⊢
    exact herr
  | ok start =>
    cases hb : Budget.ofFactor x c.size with
    | error e' =>
      rw [routePinnedWith_eq, hl, hb] at herr ⊢
      exact herr
    | ok budget =>
      obtain ⟨out, hrests⟩ := exists_rests (σ := σ) hd hl hb
      rw [(hrests s).2, bind_ok_eq_error_iff] at herr
      rw [(hrests s').2, bind_ok_eq_error_iff]
      exact foldlM_eq_error_of_rests (hrests s).1 (hrests s').1 (forall_lt_size hl) herr

/-- Two sources of draws lead to the same error, or to as many SWAPs. -/
theorem routePinnedWith_agree (hd : d.InWords) (x : Binary64) (request : Request) (c : Circuit) (s s' : σ) :
    (∃ e, routePinnedWith x s request c d = .error e ∧ routePinnedWith x s' request c d = .error e) ∨
    ∃ r r', routePinnedWith x s request c d = .ok r ∧ routePinnedWith x s' request c d = .ok r' ∧
      r.swaps = r'.swaps := by
  cases h : routePinnedWith x s request c d with
  | error e => exact .inl ⟨e, rfl, routePinnedWith_eq_error_of hd s' h⟩
  | ok r =>
    cases h' : routePinnedWith x s' request c d with
    | error e' =>
      rw [routePinnedWith_eq_error_of hd s h'] at h
      cases h
    | ok r' =>
      refine .inr ⟨r, r', rfl, rfl, ?_⟩
      obtain ⟨start, hl, hrest⟩ := bind_eq_ok.mp h
      obtain ⟨budget, hb, -⟩ := bind_eq_ok.mp hrest
      have hswaps := fun s => (routePinnedWith_eq_ok_iff (σ := σ) hd hl hb s).2
      rw [hswaps s r h, hswaps s' r' h']

end Routing

end CircuitMapping
