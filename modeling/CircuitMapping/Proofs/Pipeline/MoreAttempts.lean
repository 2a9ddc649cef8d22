/-
  CircuitMapping.Proofs.Pipeline.MoreAttempts — more attempts never hurt.

  Attempts draw different layouts and paths, but whether there is anything else than the budget in the way does not
  depend on what is drawn. A circuit that was routed has no gate that is too wide (`routable_of_routeWith`). The lowest
  nodes and a request are the same for every seed, and a search finds a layout for every seed if it does for one, on
  which all qubits are linked where the device is connected (`exists_place`). So once one attempt succeeds, all others
  succeed or are refused by the budget (`isRefusal_of_attempt`), none of which ends the attempts.

  So if the best of some attempts is known, further attempts keep it or find a better one (`more_attempts_never_hurt`).
-/
import CircuitMapping.Proofs.Journal.Passes
import CircuitMapping.Proofs.Pipeline.Repeats
import CircuitMapping.Proofs.Routing.Feasibility

namespace CircuitMapping

open Success

/-! ## What is in the way of routing -/

namespace Routing

variable {σ : Type} [Source σ] {c : Circuit} {d : Device} {l : Layout} {x : Binary64} {s : σ}

/-- What a circuit asks for besides a budget to be routed from the layout `l`. -/
structure Routable (c : Circuit) (d : Device) (l : Layout) : Prop where
  room : c.width ≤ d.nodes.length
  fits : l.Fits d c.width
  narrow : ∀ g ∈ c.gates, ¬ g.IsTooWide
  linked : ∀ g ∈ c.gates, ∀ p q, l.ends g = some (p, q) → d.Linked p q

omit [Source σ] in
theorem Routable.initial (h : Routable c d l) : ∀ l', some l = some l' → l'.size = c.width ∧ l'.OnDevice d := by
  rintro l' ⟨⟩
  exact h.fits

theorem routable_of_routeWith {r : Routed} (hd : d.InWords) (h : routeWith x s c d (some l) = .ok r) :
    Routable c d l ∧ ∃ limit, Budget.ofFactor x c.size = .ok ⟨limit, 0⟩ := by
  obtain ⟨hc, -⟩ := routeWith_spec h
  obtain ⟨hw, hi⟩ := checkInputs_eq_ok hc
  obtain ⟨limit, hb⟩ : ∃ limit, Budget.ofFactor x c.size = .ok ⟨limit, 0⟩ := by
    rw [routeWith_eq] at h
    obtain ⟨-, -, h⟩ := bind_eq_ok.mp h
    obtain ⟨⟨limit, used⟩, hb, -⟩ := bind_eq_ok.mp h
    obtain rfl : used = 0 := used_of_ofFactor hb
    exact ⟨limit, hb⟩
  obtain ⟨start, out, hstart, hk, hroute⟩ := exists_keeps hd hw hi hb s
  obtain rfl : start = l := hstart
  have hf := (exists_foldlM_iff hk c.forall_mem_gates).mp (exists_bind_ok_iff.mp ⟨r, hroute ▸ h⟩)
  exact ⟨⟨hw, hi start rfl, hf.narrow, hf.linked⟩, limit, hb⟩

/-- A circuit that asks for no more than a budget can only be refused by its budget. -/
theorem isRefusal_of_routeWith {limit : Nat} {e : Error} (hd : d.InWords) (hr : Routable c d l)
    (hb : Budget.ofFactor x c.size = .ok ⟨limit, 0⟩) (h : routeWith x s c d (some l) = .error e) : e.IsRefusal := by
  obtain ⟨start, out, hstart, hk, hroute⟩ := exists_keeps hd hr.room hr.initial hb s
  obtain rfl : start = l := hstart
  rw [hroute, bind_ok_eq_error_iff, foldlM_stops_iff hk c.forall_mem_gates] at h
  obtain ⟨gs, g, hs, hgates, -, hstops⟩ := h
  have hg : g ∈ c.gates := hgates ▸ List.mem_append_right gs (List.mem_cons_self ..)
  cases hstops with
  | tooWide hwide => exact absurd hwide (hr.narrow g hg)
  | apart he hl _ => exact absurd (hr.linked g hg _ _ he) hl
  | overBudget _ => exact ⟨_, _, _, rfl⟩

end Routing

/-! ## Placing from another seed -/

namespace Pipeline

variable {p : Pipeline} {c : Circuit} {seed : UInt64}

/-- The first layout of an attempt that does not ask for one, and the journal with it. -/
def place (p : Pipeline) (c : Circuit) (seed : UInt64) : Except Error (Layout × Journal) :=
  if p.options.method = .sabre then reported (Pass.placeSabre { p.options.sabre with seed } c p.device) .empty
  else reported (Pass.placeLowest c p.device) .empty

theorem attempt_of_place (hm : p.options.method ≠ .custom) (seed : UInt64) :
    p.attempt c seed = p.place c seed >>= fun a =>
      Routing.route { p.options.router with seed } c p.device (some a.1) >>= fun r =>
        .ok ⟨r, (Pass.routed "ShortestPathRouter" r).appendTo a.2⟩ := by
  unfold attempt place
  cases hmethod : p.options.method with
  | custom => exact absurd hmethod hm
  | sabre => exact bind_congr fun a => reported_routed _ "ShortestPathRouter" a.2
  | trivial => exact bind_congr fun a => reported_routed _ "ShortestPathRouter" a.2

theorem exists_assign_of_reported {o : Sabre.Options} {d : Device} {j : Journal} {a : Layout × Journal}
    (h : reported (Pass.placeSabre o c d) j = .ok a) : ∃ r, Sabre.assign o c d = .ok r := by
  have hrun := reported_eq_ok h
  unfold Pass.placeSabre at hrun
  dsimp only at hrun
  generalize hx : (Report.run (Sabre.assign o c d) _ (some j)).1 = x at hrun
  cases x with
  | error e => cases hrun
  | ok r => exact ⟨r, Report.run_eq_ok hx⟩

theorem exists_reported_of_assign {d : Device} (hd : d.InWords) {o : Sabre.Options} {r : Sabre.Outcome}
    (h : Sabre.assign o c d = .ok r) (j : Journal) : ∃ j', reported (Pass.placeSabre o c d) j = .ok (r.layout, j') := by
  have hdetached : (Pass.placeSabre o c d none).1 = .ok r.layout := by
    unfold Pass.placeSabre Report.run
    simp only [h]
    rfl
  exact exists_reported (((Pass.atomic_placeSabre hd o c).transparent (some j)).trans hdetached)

/-- A search that found a layout for one seed finds one for every other. -/
theorem exists_place_of_sabre (hd : p.device.InWords) (hm : p.options.method = .sabre) {a : Layout × Journal}
    (h : p.place c seed = .ok a) (seed' : UInt64) :
    ∃ a', p.place c seed' = .ok a' ∧ a'.1.Fits p.device c.width := by
  unfold place at h ⊢
  rw [if_pos hm] at h ⊢
  obtain ⟨r, hr⟩ := exists_assign_of_reported h
  obtain ⟨hc, pairs, hp⟩ := Sabre.checks_of_assignWith hr
  obtain ⟨r', hr', hfits⟩ := Sabre.exists_assignWith hc hp { p.options.sabre with seed := seed' }
    (Twister.ofSeed seed')
  obtain ⟨j, hj⟩ := exists_reported_of_assign hd hr' .empty
  exact ⟨_, hj, hfits⟩

/-- Whatever the seed, there is a layout from which nothing but the budget is in the way. -/
theorem exists_place (hd : p.device.InWords)
    (hconnected : p.options.method = .sabre → p.device.isConnected = true) {a : Layout × Journal}
    (h : p.place c seed = .ok a) (hr : Routing.Routable c p.device a.1) (seed' : UInt64) :
    ∃ a', p.place c seed' = .ok a' ∧ Routing.Routable c p.device a'.1 := by
  by_cases hs : p.options.method = .sabre
  · obtain ⟨a', ha', hfits⟩ := exists_place_of_sabre hd hs h seed'
    refine ⟨a', ha', hr.room, hfits, hr.narrow, ?_⟩
    intro g _ q q' he
    obtain ⟨hq, hq'⟩ := Layout.mem_nodes_of_ends hfits.2 he
    exact Device.isConnected_iff.mp (hconnected hs) q hq q' hq'
  · -- the lowest nodes are the same for every seed
    have hsame : p.place c seed' = p.place c seed := by
      unfold place
      rw [if_neg hs, if_neg hs]
    exact ⟨a, hsame.trans h, hr⟩

/-! ## Attempts from another seed -/

/-- Once an attempt has succeeded, no other meets anything but its budget. -/
theorem isRefusal_of_attempt (hd : p.device.InWords)
    (hconnected : p.options.method = .sabre → p.device.isConnected = true) {o : RouteOutcome}
    (h : p.attempt c seed = .ok o) {seed' : UInt64} {e : Error} (he : p.attempt c seed' = .error e) :
    e.IsRefusal := by
  by_cases hm : p.options.method = .custom
  · have hagree := agree_of_custom hd hm c seed seed'
    rw [h, he] at hagree
    cases hagree
  · rw [attempt_of_place hm] at h he
    obtain ⟨a, ha, h⟩ := bind_eq_ok.mp h
    obtain ⟨r, hr, -⟩ := bind_eq_ok.mp h
    obtain ⟨hroutable, limit, hb⟩ := Routing.routable_of_routeWith hd hr
    obtain ⟨a', ha', hroutable'⟩ := exists_place hd hconnected ha hroutable seed'
    rcases bind_eq_error.mp he with he | ⟨b, hb', he⟩
    · rw [ha'] at he
      cases he
    · rw [ha'] at hb'
      cases hb'
      exact Routing.isRefusal_of_routeWith hd hroutable' hb (bind_ok_eq_error_iff.mp he)

/-- Fewer attempts are the first of more. -/
theorem Made.le_of_le {p p' : Pipeline} {m m' : Nat} (h : p.Made c m) (h' : p'.Made c m')
    (hsame : ∀ i, p'.outcome c i = p.outcome c i) (hle : p.options.attempts ≤ p'.options.attempts) : m ≤ m' := by
  by_contra hlt
  have hm := h.le
  have hends := h'.ended (by omega)
  rw [hsame] at hends
  have hpos := h'.pos
  exact h.going (m' - 1) (by omega) hends

/-- With more attempts, what routing returned is returned or improved. -/
theorem more_attempts_never_hurt {p : Pipeline} {c : Circuit} {o : RouteOutcome} {n : Nat} (hd : p.device.InWords)
    (hconnected : p.options.method = .sabre → p.device.isConnected = true) (hn : p.options.attempts ≤ n)
    (h : p.route c = .ok o) :
    ∃ o', (p.withAttempts n (Nat.lt_of_lt_of_le p.attempts_pos hn)).route c = .ok o' ∧
      o'.routed.swaps ≤ o.routed.swaps := by
  obtain ⟨m, k, hmade, hbest⟩ := best_of_route h
  obtain ⟨m', hmade', hleaves'⟩ := exists_made (p.withAttempts n (Nat.lt_of_lt_of_le p.attempts_pos hn)) c
  have hle := hmade.le_of_le hmade' (fun _ => rfl) hn
  have hk : k < m' := Nat.lt_of_lt_of_le hbest.lt hle
  generalize hx : (p.withAttempts n _).attempts c _ _ .none = x at hleaves'
  cases hleaves' with
  | stopped he hhard => exact absurd (isRefusal_of_attempt hd hconnected hbest.outcome he) hhard
  | standing hst _ =>
    obtain ⟨k', o', hbest', rfl⟩ := hst.exists_best ⟨k, hk, o, hbest.outcome⟩
    exact ⟨o', route_of_best hx, hbest'.fewest k hk o hbest.outcome⟩

/-- Two SWAPs after two attempts, and no more after five. -/
theorem more_attempts_never_hurt_allMeet :
    lateInARow.device.InWords ∧
    (lateInARow.options.method = .sabre → lateInARow.device.isConnected = true) ∧
    ∃ hn : lateInARow.options.attempts ≤ 5, ∃ o, lateInARow.route Routing.allMeet = .ok o ∧ o.routed.swaps = 2 ∧
      ∃ o', (lateInARow.withAttempts 5 (Nat.lt_of_lt_of_le lateInARow.attempts_pos hn)).route Routing.allMeet = .ok o' ∧
        o'.routed.swaps ≤ o.routed.swaps := by
  have hd : lateInARow.device.InWords := by unfold Device.InWords; decide
  have hconnected : lateInARow.options.method = .sabre → lateInARow.device.isConnected = true := by decide
  have hn : lateInARow.options.attempts ≤ 5 := by decide
  obtain ⟨o, ho, hs⟩ := exists_ok_of_map (x := lateInARow.route Routing.allMeet) (f := (·.routed.swaps)) (b := 2)
    (by decide +kernel)
  exact ⟨hd, hconnected, hn, o, ho, hs, more_attempts_never_hurt hd hconnected hn ho⟩

end Pipeline

end CircuitMapping
