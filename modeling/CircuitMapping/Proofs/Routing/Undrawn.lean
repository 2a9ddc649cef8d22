/-
  CircuitMapping.Proofs.Routing.Undrawn — where shortest paths are unique, routing does not depend on its seed.

  Routing asks its source of draws for paths and for nothing else. On a device with unique shortest paths every path is
  the one without draws, and the source stays as it was. So the same holds of bringing two qubits together
  (`approach_undrawn`), of a gate (`step_undrawn`, `pinnedStep_undrawn`) and of gates in a row (`foldlM_undrawn`):
  whatever the source, they end as without draws and hand the source on. Nothing before the first gate is drawn, so both
  ways of routing end as without draws (`routeWith_undrawn`, `routePinnedWith_undrawn`), and any two seeds lead to the
  same circuit or to the same error (`unique_paths_leave_nothing_to_draw`).
-/
import CircuitMapping.Proofs.Device.UniquePaths
import CircuitMapping.Proofs.Routing.Cutoff

namespace CircuitMapping.Routing

open Success Transit

variable {σ : Type} [Source σ] {d : Device}

/-! ## One gate -/

theorem approach_undrawn (h : d.HasUniquePaths) {g : Gate} (hi : g.IsInteraction) (t : Transit) (s : σ) :
    approach d g t s = (fun r => (r.1, r.2.1, s)) <$> approach d g t Lowest.mk := by
  obtain ⟨a, b, -, hq⟩ := Gate.qubits_of_isInteraction hi
  rw [approach_of_qubits hq, approach_of_qubits hq, map_bind]
  refine bind_congr fun p => ?_
  rw [map_bind]
  refine bind_congr fun q => ?_
  by_cases hadj : d.adjacent p q = true
  · rw [if_pos hadj, if_pos hadj]
    rfl
  · rw [if_neg hadj, if_neg hadj, h.shortestPath_eq, bind_map_left, map_bind]
    refine bind_congr fun r => ?_
    rw [map_bind]
    rfl

theorem step_undrawn (h : d.HasUniquePaths) (t : Transit) (s : σ) (g : Gate) :
    step d (t, s) g = (fun r => (r.1, s)) <$> step d (t, Lowest.mk) g := by
  by_cases hw : g.IsTooWide
  · rw [step_of_isTooWide hw, step_of_isTooWide hw]
    rfl
  by_cases hi : g.IsInteraction
  · rw [step_of_isInteraction hi, step_of_isInteraction hi, approach_undrawn h hi, bind_map_left, map_bind]
    refine bind_congr fun r => ?_
    rw [map_bind]
    rfl
  · rw [step_of_not_isInteraction hw hi, step_of_not_isInteraction hw hi, map_bind]
    rfl

theorem pinnedStep_undrawn (h : d.HasUniquePaths) (t : Transit) (s : σ) (g : Gate) :
    pinnedStep d (t, s) g = (fun r => (r.1, s)) <$> pinnedStep d (t, Lowest.mk) g := by
  by_cases hw : g.IsTooWide
  · rw [pinnedStep_of_isTooWide hw, pinnedStep_of_isTooWide hw]
    rfl
  by_cases hi : g.IsInteraction
  · rw [pinnedStep_of_isInteraction hi, pinnedStep_of_isInteraction hi, approach_undrawn h hi, bind_map_left, map_bind]
    refine bind_congr fun r => ?_
    rw [map_bind]
    refine bind_congr fun _ => ?_
    rw [map_bind]
    refine bind_congr fun u => ?_
    rw [map_bind]
    rfl
  · rw [pinnedStep_of_not_isInteraction hw hi, pinnedStep_of_not_isInteraction hw hi, map_bind]
    rfl

/-! ## Whole circuits -/

omit [Source σ] in
/-- Steps that each end as without draws do so one after the other. -/
theorem foldlM_undrawn {f : Transit × σ → Gate → Except Error (Transit × σ)}
    {f' : Transit × Lowest → Gate → Except Error (Transit × Lowest)}
    (hf : ∀ t s g, f (t, s) g = (fun r => (r.1, s)) <$> f' (t, Lowest.mk) g) (gs : List Gate) (t : Transit) (s : σ) :
    gs.foldlM f (t, s) = (fun r => (r.1, s)) <$> gs.foldlM f' (t, Lowest.mk) := by
  induction gs generalizing t with
  | nil => rfl
  | cons g gs ih =>
    rw [List.foldlM_cons, List.foldlM_cons, hf, bind_map_left, map_bind]
    exact bind_congr fun r => ih r.1

theorem routeWith_undrawn (h : d.HasUniquePaths) (x : Binary64) (s : σ) (c : Circuit) (initial : Option Layout) :
    routeWith x s c d initial = routeWith x Lowest.mk c d initial := by
  rw [routeWith_eq, routeWith_eq]
  refine bind_congr fun _ => bind_congr fun budget => bind_congr fun start => bind_congr fun w => ?_
  refine bind_congr fun out => ?_
  rw [foldlM_undrawn (step_undrawn h), bind_map_left]

theorem routePinnedWith_undrawn (h : d.HasUniquePaths) (x : Binary64) (s : σ) (request : Request) (c : Circuit) :
    routePinnedWith x s request c d = routePinnedWith x Lowest.mk request c d := by
  rw [routePinnedWith_eq, routePinnedWith_eq]
  refine bind_congr fun start => bind_congr fun budget => bind_congr fun last => bind_congr fun out => ?_
  rw [foldlM_undrawn (pinnedStep_undrawn h), bind_map_left]

/-- On a device with unique shortest paths both ways of routing give the same circuit or the same error with any two
    seeds, and a path leaves the source of draws as it was. Such are all lines and stars, and every device whose
    couplings form no circle, trees among them. -/
theorem unique_paths_leave_nothing_to_draw :
    (∀ d : Device, d.HasUniquePaths →
      (∀ (x : Binary64) (seed seed' : UInt64) (c : Circuit) (initial : Option Layout),
        route ⟨seed, x⟩ c d initial = route ⟨seed', x⟩ c d initial) ∧
      (∀ (x : Binary64) (seed seed' : UInt64) (request : Request) (c : Circuit),
        routePinned ⟨seed, x⟩ request c d = routePinned ⟨seed', x⟩ request c d) ∧
      ∀ {σ : Type} [Source σ] (a b : Nat) (s s' : σ) (path : List Nat),
        d.shortestPath a b s = .ok (path, s') → s' = s) ∧
    (∀ n, n ≠ 0 → ∃ d, Device.line n = .ok d ∧ d.HasUniquePaths) ∧
    (∀ leaves center, leaves ≠ 0 → center ≤ leaves → ∃ d, Device.star leaves center = .ok d ∧ d.HasUniquePaths) ∧
    ∀ d : Device, d.graph.IsAcyclic → d.HasUniquePaths := by
  refine ⟨fun d h => ⟨?_, ?_, ?_⟩, fun n => Device.hasUniquePaths_line, fun leaves center => Device.hasUniquePaths_star,
    fun d => Device.hasUniquePaths_of_isAcyclic⟩
  · intro x seed seed' c initial
    exact (routeWith_undrawn h x _ c initial).trans (routeWith_undrawn h x _ c initial).symm
  · intro x seed seed' request c
    exact (routePinnedWith_undrawn h x _ request c).trans (routePinnedWith_undrawn h x _ request c).symm
  · intro σ _ a b s s' path hpath
    rw [h.shortestPath_eq] at hpath
    cases hlow : d.shortestPath a b Lowest.mk with
    | ok r =>
      rw [hlow] at hpath
      cases hpath
      rfl
    | error e =>
      rw [hlow] at hpath
      cases hpath

/-- On a star with three leaves, two SWAPs are inserted with either of two seeds, and four on a requested layout. -/
theorem unique_paths_leave_nothing_to_draw_star : ∃ d, Device.star 3 1 = .ok d ∧ d.HasUniquePaths ∧
    (∃ r, route ⟨0, .ofFloat 64⟩ allMeet d none = .ok r ∧ r.swaps = 2 ∧ route ⟨5, .ofFloat 64⟩ allMeet d none = .ok r) ∧
    ∃ r, routePinned ⟨0, .ofFloat 64⟩ [(0, 0), (1, 1), (2, 2)] allMeet d = .ok r ∧ r.swaps = 4 ∧
      routePinned ⟨5, .ofFloat 64⟩ [(0, 0), (1, 1), (2, 2)] allMeet d = .ok r := by
  obtain ⟨hunique, -, hstar, -⟩ := unique_paths_leave_nothing_to_draw
  obtain ⟨d, hd, hu⟩ := hstar 3 1 (by decide) (by decide)
  obtain ⟨hroute, hpinned, -⟩ := hunique d hu
  have hswaps : (Device.star 3 1 >>= fun d =>
      route ⟨0, .ofFloat 64⟩ allMeet d none).toOption.map (·.swaps) = some 2 := by
    decide +kernel
  have hswaps' : (Device.star 3 1 >>= fun d =>
      routePinned ⟨0, .ofFloat 64⟩ [(0, 0), (1, 1), (2, 2)] allMeet d).toOption.map (·.swaps) = some 4 := by
    decide +kernel
  rw [hd] at hswaps hswaps'
  obtain ⟨r, hr, hs⟩ := exists_ok_of_map hswaps
  obtain ⟨r', hr', hs'⟩ := exists_ok_of_map hswaps'
  exact ⟨d, hd, hu, ⟨r, hr, hs, (hroute _ 5 0 _ _).trans hr⟩, r', hr', hs', (hpinned _ 5 0 _ _).trans hr'⟩

end CircuitMapping.Routing
