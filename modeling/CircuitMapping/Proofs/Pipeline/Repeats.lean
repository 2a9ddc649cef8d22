/-
  CircuitMapping.Proofs.Pipeline.Repeats — attempts that all come to the same.

  Two outcomes agree when they are the same error, or both routed a circuit with as many SWAPs (`Agree`). If every
  attempt agrees with the first, the first is what routing returns, however many are allowed (`route_of_agree`).

  On a requested layout every attempt agrees with every other (`agree_of_custom`), since the SWAPs that it costs are
  told by the layout alone. So a valid request is routed within a budget exactly when that covers the round trips of
  all gates, always with as many SWAPs or the same error, and further attempts are of no use
  (`requested_cost_is_fixed`).
-/
import CircuitMapping.Proofs.Pipeline.EndToEnd
import CircuitMapping.Proofs.Routing.RoundTrips

namespace CircuitMapping.Pipeline

open Success

/-- The same pipeline with another number of attempts. -/
def withAttempts (p : Pipeline) (n : Nat) (hn : 0 < n) : Pipeline :=
  { p with options := { p.options with attempts := n }, attempts_pos := hn }

/-! ## Outcomes that agree -/

/-- The same error, or as many SWAPs. -/
inductive Agree : Except Error RouteOutcome → Except Error RouteOutcome → Prop
  | error (e : Error) : Agree (.error e) (.error e)
  | ok {o o' : RouteOutcome} : o.routed.swaps = o'.routed.swaps → Agree (.ok o) (.ok o')

variable {p : Pipeline} {c : Circuit}

/-- The first of attempts that all agree is kept. -/
theorem route_of_agree (h : ∀ i, Agree (p.outcome c 0) (p.outcome c i)) : p.route c = p.outcome c 0 := by
  have of_error : ∀ {i e}, p.outcome c i = .error e → p.outcome c 0 = .error e := by
    intro i e he
    have hi := h i
    rw [he] at hi
    generalize p.outcome c 0 = x at hi
    cases hi
    rfl
  obtain ⟨m, hmade, hleaves⟩ := exists_made p c
  generalize hx : p.attempts c p.options.attempts p.options.router.seed .none = x at hleaves
  cases hleaves with
  | stopped he _ => rw [route_of_stopped hx, of_error he]
  | standing hst _ =>
    cases hst with
    | none => exact absurd hmade.pos (Nat.lt_irrefl 0)
    | refused _ he => rw [route_of_refused hx, of_error he]
    | @best m k o hb =>
      rw [route_of_best hx]
      by_cases hk : k = 0
      · rw [← hb.outcome, hk]
      · -- the first attempt would have been kept before `k`
        have hagree := h k
        rw [hb.outcome] at hagree
        generalize hf : p.outcome c 0 = y at hagree
        cases hagree with
        | ok hswaps =>
          have := hb.earliest 0 (Nat.pos_of_ne_zero hk) _ hf
          omega

/-! ## Attempts on a requested layout -/

/-- What routing reports can always be recorded. -/
theorem reported_routed (x : Except Error Routed) (name : String) (j : Journal) :
    (reported (Report.run x fun r => .ok (Pass.routed name r)) j >>= fun r =>
      (.ok ⟨r.1, r.2⟩ : Except Error RouteOutcome)) = x >>= fun r => .ok ⟨r, (Pass.routed name r).appendTo j⟩ := by
  cases x with
  | error e => rfl
  | ok r => rfl

theorem attempt_of_custom (hm : p.options.method = .custom) (seed : UInt64) :
    p.attempt c seed = Routing.routePinned { p.options.router with seed } p.options.request c p.device >>= fun r =>
      .ok ⟨r, (Pass.routed "CustomLayoutPass" r).appendTo .empty⟩ := by
  unfold attempt
  simp only [hm]
  exact reported_routed _ "CustomLayoutPass" .empty

theorem agree_of_custom (hd : p.device.InWords) (hm : p.options.method = .custom) (c : Circuit) (seed seed' : UInt64) :
    Agree (p.attempt c seed) (p.attempt c seed') := by
  rw [attempt_of_custom hm, attempt_of_custom hm]
  unfold Routing.routePinned
  rcases Routing.routePinnedWith_agree hd p.options.router.swapFactor p.options.request c (Twister.ofSeed seed)
    (Twister.ofSeed seed') with ⟨e, he, he'⟩ | ⟨r, r', hr, hr', hs⟩
  · rw [he, he']
    exact .error e
  · rw [hr, hr']
    exact .ok hs

/-- A valid request: routing succeeds exactly when no gate is too wide, all distances are finite and the budget covers
    the round trips, and then inserts these; otherwise the error is that of every seed. So any number of attempts has
    the outcome of one. -/
theorem requested_cost_is_fixed {c : Circuit} {d : Device} {request : Request} {x : Binary64} (hd : d.InWords)
    (hkeys : request.keys = List.range c.width) (hdistinct : request.values.Nodup)
    (hnodes : ∀ q ∈ request.values, q ∈ d.nodes) (hx : x.isAmount = true) :
    (∃ l limit, request.layout c d = .ok l ∧ l.placement = request.values ∧
      Budget.ofFactor x c.size = .ok ⟨limit, 0⟩ ∧
      (∀ seed, (∃ r, Routing.routePinned ⟨seed, x⟩ request c d = .ok r) ↔
        (∀ g ∈ c.gates, ¬ g.IsTooWide) ∧
        (∀ g ∈ c.gates, ∀ p q, l.ends g = some (p, q) → d.hops? p q ≠ none) ∧
        d.roundTrips l c.gates ≤ limit) ∧
      ∀ seed r, Routing.routePinned ⟨seed, x⟩ request c d = .ok r → r.swaps = d.roundTrips l c.gates) ∧
    (∀ seed seed' e, Routing.routePinned ⟨seed, x⟩ request c d = .error e →
      Routing.routePinned ⟨seed', x⟩ request c d = .error e) ∧
    ∀ p : Pipeline, p.device = d → p.options.method = .custom →
      p.route c = (p.withAttempts 1 Nat.one_pos).route c := by
  refine ⟨?_, ?_, ?_⟩
  · obtain ⟨l, hl, hplacement⟩ := Request.exists_layout hkeys hdistinct hnodes
    obtain ⟨limit, hb, -⟩ := Routing.exists_budget (n := c.size) hx
    obtain ⟨-, -, hon⟩ := Request.layout_eq_ok hl
    refine ⟨l, limit, hl, hplacement, hb, ?_, ?_⟩
    · intro seed
      refine (Routing.routePinnedWith_eq_ok_iff hd hl hb (Twister.ofSeed seed)).1.trans ?_
      have linked_iff : ∀ {g p q}, l.ends g = some (p, q) → (d.hops? p q ≠ none ↔ d.Linked p q) := by
        intro g p q he
        rw [Ne, Device.hops?_eq_none_iff (Layout.mem_nodes_of_ends hon he).2, not_not]
      constructor
      · intro h
        refine ⟨h.narrow, fun g hg p q he => (linked_iff he).mpr (h.linked g hg p q he), ?_⟩
        simpa using h.covered
      · rintro ⟨hnarrow, hfinite, hcovered⟩
        refine ⟨hnarrow, fun g hg p q he => (linked_iff he).mp (hfinite g hg p q he), ?_⟩
        simpa using hcovered
    · intro seed
      exact (Routing.routePinnedWith_eq_ok_iff hd hl hb (Twister.ofSeed seed)).2
  · intro seed seed' e
    exact Routing.routePinnedWith_eq_error_of hd (Twister.ofSeed seed')
  · rintro p rfl hm
    have hagree : ∀ i, Agree (p.outcome c 0) (p.outcome c i) := fun i => agree_of_custom hd hm c _ _
    rw [route_of_agree hagree]
    exact (route_of_agree (p := p.withAttempts 1 Nat.one_pos) hagree).symm

/-- Four qubits in a row, a requested layout and three attempts. -/
def pinnedInARow : Pipeline where
  device := Routing.fourInARow
  durations := ⟨[], []⟩
  options := { method := .custom, request := .ofEntries [(2, 4), (0, 1), (1, 2)], attempts := 3 }
  attempts_pos := by decide

/-- Two of the gates need a SWAP there and one back: four SWAPs from every seed. -/
theorem requested_cost_is_fixed_allMeet :
    Routing.fourInARow.InWords ∧
    Request.keys (.ofEntries [(2, 4), (0, 1), (1, 2)]) = List.range Routing.allMeet.width ∧
    (Request.values (.ofEntries [(2, 4), (0, 1), (1, 2)])).Nodup ∧
    (∀ q ∈ Request.values (.ofEntries [(2, 4), (0, 1), (1, 2)]), q ∈ Routing.fourInARow.nodes) ∧
    (Binary64.ofFloat 64).isAmount = true ∧
    (∀ seed, ∃ r, Routing.routePinned ⟨seed, .ofFloat 64⟩ (.ofEntries [(2, 4), (0, 1), (1, 2)]) Routing.allMeet
      Routing.fourInARow = .ok r ∧ r.swaps = 4) ∧
    pinnedInARow.route Routing.allMeet = (pinnedInARow.withAttempts 1 Nat.one_pos).route Routing.allMeet := by
  have hd : Routing.fourInARow.InWords := by unfold Device.InWords; decide
  have hkeys : Request.keys (.ofEntries [(2, 4), (0, 1), (1, 2)]) = List.range Routing.allMeet.width := by decide
  have hdistinct : (Request.values (.ofEntries [(2, 4), (0, 1), (1, 2)])).Nodup := by decide
  have hnodes : ∀ q ∈ Request.values (.ofEntries [(2, 4), (0, 1), (1, 2)]), q ∈ Routing.fourInARow.nodes := by decide
  have hx : (Binary64.ofFloat 64).isAmount = true := by decide +kernel
  obtain ⟨⟨l, limit, hl, -, hb, hok, hcost⟩, -, hroute⟩ := requested_cost_is_fixed hd hkeys hdistinct hnodes hx
  refine ⟨hd, hkeys, hdistinct, hnodes, hx, ?_, hroute pinnedInARow rfl rfl⟩
  intro seed
  obtain ⟨r, hr, hs⟩ := exists_ok_of_map
    (x := Routing.routePinned ⟨0, .ofFloat 64⟩ (.ofEntries [(2, 4), (0, 1), (1, 2)]) Routing.allMeet Routing.fourInARow)
    (f := (·.swaps)) (b := 4) (by decide +kernel)
  obtain ⟨r', hr'⟩ := (hok seed).mpr ((hok 0).mp ⟨r, hr⟩)
  exact ⟨r', hr', by rw [hcost seed r' hr', ← hcost 0 r hr, hs]⟩

end CircuitMapping.Pipeline
