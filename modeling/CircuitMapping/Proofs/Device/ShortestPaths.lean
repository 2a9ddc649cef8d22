/-
  CircuitMapping.Proofs.Device.ShortestPaths — a shortest path is found whatever is drawn.

  On the way down to the source of a search the qubit after `i` steps is `i` couplings nearer (`exists_at_descend`).
  So at every step there are candidates for the next one, whichever were taken before, and the path is as long as the
  distance of its ends. Asking for a path fails in two ways only: for what is not a node, and for nodes in different
  components (`shortestPath_of_every_draw`).
-/
import CircuitMapping.Proofs.Device.Walks

namespace CircuitMapping

open Success

namespace Device

variable {σ : Type} [Source σ] {d : Device} {found : Distances} {source a b p q k : Nat}

/-! ## The steps of a path -/

/-- The candidates for a step are the coupled qubits at the distance asked for. -/
theorem mem_nearer : p ∈ d.links.nearer found q k ↔ d.adjacent q p = true ∧ found[p]? = some k := by
  simp [Links.nearer, partners_links, mem_partners]

/-- The qubit after `i` of the steps is `i` couplings nearer to the source. -/
theorem exists_at_descend (hf : found.Descends d source) (k : Nat) {q : Nat} (s : σ) (hq : found[q]? = some k) {i : Nat}
    (hi : i ≤ k) : ∃ p, (q :: (d.links.descend found k q s).1)[i]? = some p ∧ found[p]? = some (k - i) := by
  induction k generalizing q s i with
  | zero =>
    obtain rfl : i = 0 := by omega
    exact ⟨q, rfl, hq⟩
  | succ k ih =>
    cases i with
    | zero => exact ⟨q, rfl, hq⟩
    | succ i =>
      obtain ⟨n, hqn, hn⟩ := hf.succ q k hq
      have hcand : n ∈ d.links.nearer found q k := mem_nearer.mpr ⟨hqn, hn⟩
      unfold Links.descend
      split
      · rename_i hnil
        rw [hnil] at hcand
        cases hcand
      · rename_i c cs hcons
        have hpick := Source.pick_mem c cs s
        rw [← hcons] at hpick
        obtain ⟨p, hp, hk⟩ := ih (Source.pick c cs s).2 (mem_nearer.mp hpick).2 (Nat.le_of_succ_le_succ hi)
        exact ⟨p, hp, by rwa [Nat.succ_sub_succ]⟩

/-- At every step of a path found there are candidates for the next one, and it is one of them. -/
theorem exists_candidate_of_shortestPath {s s' : σ} {path : List Nat} (h : d.shortestPath a b s = .ok (path, s'))
    (hk : d.hops? a b = some k) {i : Nat} (hi : i < k) :
    ∃ p q, path[i]? = some p ∧ path[i + 1]? = some q ∧ q ∈ d.links.nearer (d.distancesFrom b) p (k - (i + 1)) := by
  have hpath := isPath_of_shortestPath h
  obtain ⟨-, -, k', hk', rfl, -⟩ := shortestPath_eq_ok h
  rw [hk] at hk'
  cases hk'
  have hf := descends_distancesFrom d b
  obtain ⟨p, hp, -⟩ := exists_at_descend hf k s hk (Nat.le_of_lt hi)
  obtain ⟨q, hq, hnear⟩ := exists_at_descend hf k s hk hi
  obtain ⟨hi₀, rfl⟩ := List.getElem?_eq_some_iff.mp hp
  obtain ⟨hi₁, rfl⟩ := List.getElem?_eq_some_iff.mp hq
  exact ⟨_, _, hp, hq, mem_nearer.mpr ⟨hpath.coupled.getElem i hi₁, hnear⟩⟩

/-! ## Failing to find a path -/

/-- A path is refused for what is not a node, and for nodes in different components. -/
theorem shortestPath_eq_error {s : σ} {e : Error} (h : d.shortestPath a b s = .error e) :
    (∃ q, (q = a ∨ q = b) ∧ q ∉ d.nodes ∧ e = .range (.notANode q)) ∨
      a ∈ d.nodes ∧ b ∈ d.nodes ∧ ¬ d.Linked a b ∧ e = .noPath a b := by
  rcases bind_eq_error.mp h with ha | ⟨_, ha, h'⟩
  · exact .inl ⟨a, .inl rfl, requireNode_eq_error.mp ha⟩
  rcases bind_eq_error.mp h' with hb | ⟨_, hb, -⟩
  · exact .inl ⟨b, .inr rfl, requireNode_eq_error.mp hb⟩
  rw [requireNode_eq_ok] at ha hb
  by_cases hl : d.Linked a b
  · obtain ⟨k, hk⟩ := exists_hops?_of_linked hb hl
    obtain ⟨path, s', hok, -⟩ := shortestPath_of_hops? ha hb hk s
    rw [hok] at h
    cases h
  · rw [shortestPath_of_not_linked ha hb hl] at h
    cases h
    exact .inr ⟨ha, hb, hl, rfl⟩

/-- Whatever a source of draws answers: between linked nodes a path is found that is as long as their distance, and at
    each of its steps there were candidates, one of which was taken. Nodes in different components have no path, and
    what is not a node is refused; nothing else goes wrong. -/
theorem shortestPath_of_every_draw (d : Device) (a b : Nat) (s : σ) :
    (a ∈ d.nodes → b ∈ d.nodes → d.Linked a b → ∃ path s' k, d.shortestPath a b s = .ok (path, s') ∧
      d.IsPath path a b ∧ d.distance a b = .ok (some k) ∧ path.length = k + 1 ∧
      ∀ i < k, ∃ p q, path[i]? = some p ∧ path[i + 1]? = some q ∧
        q ∈ d.links.nearer (d.distancesFrom b) p (k - (i + 1))) ∧
    (d.shortestPath a b s = .error (.noPath a b) ↔ a ∈ d.nodes ∧ b ∈ d.nodes ∧ ¬ d.Linked a b) ∧
    ((∃ q, d.shortestPath a b s = .error (.range (.notANode q))) ↔ a ∉ d.nodes ∨ b ∉ d.nodes) ∧
    ∀ e, d.shortestPath a b s = .error e →
      e = .noPath a b ∨ ∃ q, (q = a ∨ q = b) ∧ q ∉ d.nodes ∧ e = .range (.notANode q) := by
  refine ⟨?_, ⟨?_, ?_⟩, ⟨?_, ?_⟩, ?_⟩
  · intro ha hb hl
    obtain ⟨k, hk⟩ := exists_hops?_of_linked hb hl
    obtain ⟨path, s', hok, hpath, hlen⟩ := shortestPath_of_hops? ha hb hk s
    refine ⟨path, s', k, hok, hpath, distance_eq_ok.mpr ⟨ha, hb, hk⟩, hlen, ?_⟩
    intro i hi
    exact exists_candidate_of_shortestPath hok hk hi
  · intro h
    rcases shortestPath_eq_error h with ⟨q, -, -, he⟩ | ⟨ha, hb, hl, -⟩
    · cases he
    · exact ⟨ha, hb, hl⟩
  · rintro ⟨ha, hb, hl⟩
    exact shortestPath_of_not_linked ha hb hl s
  · rintro ⟨q, h⟩
    rcases shortestPath_eq_error h with ⟨q, rfl | rfl, hq, -⟩ | ⟨-, -, -, he⟩
    · exact .inl hq
    · exact .inr hq
    · cases he
  · intro hn
    cases h : d.shortestPath a b s with
    | ok r =>
      obtain ⟨ha, hb, -⟩ := shortestPath_eq_ok h
      exact absurd hn (not_or_intro (not_not_intro ha) (not_not_intro hb))
    | error e =>
      rcases shortestPath_eq_error h with ⟨q, -, -, rfl⟩ | ⟨ha, hb, -⟩
      · exact ⟨q, rfl⟩
      · exact absurd hn (not_or_intro (not_not_intro ha) (not_not_intro hb))
  · intro e h
    rcases shortestPath_eq_error h with hq | ⟨-, -, -, rfl⟩
    · exact .inr hq
    · exact .inl rfl

/-- The source that takes the last of every choice. -/
structure Last where
  deriving DecidableEq, Repr

instance : Source Last := ⟨fun n s => (n - 1, s), fun _ _ h => Nat.sub_lt h Nat.one_pos⟩

/-- Four qubits in a square, and one that is not coupled. -/
def square : Device := ⟨[2, 4, 6, 9, 11], [⟨2, 4⟩, ⟨2, 6⟩, ⟨4, 9⟩, ⟨6, 9⟩], by decide, by decide, by decide⟩

/-- Two ways lead across the square. Each is found by one source of draws, and no way leads out of it. -/
theorem shortestPath_of_every_draw_square :
    (2 ∈ square.nodes ∧ 9 ∈ square.nodes ∧ square.Linked 2 9) ∧
    square.shortestPath 2 9 Lowest.mk = .ok ([2, 4, 9], .mk) ∧
    square.shortestPath 2 9 Last.mk = .ok ([2, 6, 9], .mk) ∧
    (∃ path s' k, square.shortestPath 2 9 Last.mk = .ok (path, s') ∧ square.IsPath path 2 9 ∧
      square.distance 2 9 = .ok (some k) ∧ path.length = k + 1 ∧
      ∀ i < k, ∃ p q, path[i]? = some p ∧ path[i + 1]? = some q ∧
        q ∈ square.links.nearer (square.distancesFrom 9) p (k - (i + 1))) ∧
    (∃ q, square.shortestPath 2 3 Last.mk = .error (.range (.notANode q))) ∧
    2 ∈ square.nodes ∧ 11 ∈ square.nodes ∧ ¬ square.Linked 2 11 := by
  have h2 : 2 ∈ square.nodes := by decide
  have h9 : 9 ∈ square.nodes := by decide
  have hl : square.Linked 2 9 :=
    (linked_of_adjacent (d := square) (b := 4) (by decide)).trans (linked_of_adjacent (by decide))
  have hnone : square.shortestPath 2 11 Last.mk = .error (.noPath 2 11) := by decide +kernel
  obtain ⟨hpath, -, -, -⟩ := shortestPath_of_every_draw square 2 9 Last.mk
  obtain ⟨-, -, hrange, -⟩ := shortestPath_of_every_draw square 2 3 Last.mk
  obtain ⟨-, hapart, -, -⟩ := shortestPath_of_every_draw square 2 11 Last.mk
  exact ⟨⟨h2, h9, hl⟩, by decide +kernel, by decide +kernel, hpath h2 h9 hl, hrange.mpr (.inr (by decide)),
    hapart.mp hnone⟩

end Device

end CircuitMapping
