/-
  CircuitMapping.Proofs.Device.Shapes — the distances on lines, rings and stars.

  The devices of common shapes are connected, on the numbers from 0 on, and their distances have closed forms
  (`HasDistances`). On a line the distance is the difference of two numbers (`hasDistances_line`). On a ring it is the
  shorter of the two ways round: a coupling changes each of them by one at most (`dist_of_ringBeside`), and one step in
  the right direction, over the closing coupling where it lies there, is enough to lower it (`hasDistances_ring`). On a
  star it is 1 from the center to the others and 2 between these, wherever among the numbers the center is
  (`hasDistances_star`).

  A ring has one coupling more than the line that it closes (`length_edges_ring`).
-/
import CircuitMapping.Proofs.Device.EdgeLists
import CircuitMapping.Proofs.Device.Matrix

namespace CircuitMapping

open Success

namespace Device

variable {d : Device} {n leaves center p q : Nat}

/-! ## Distances in closed form -/

/-- The shorter of the two ways round a ring of `n` numbers. -/
def ringDistance (n p q : Nat) : Nat := min (Nat.dist p q) (n - Nat.dist p q)

def starDistance (center p q : Nat) : Nat := if p = q then 0 else if p = center ∨ q = center then 1 else 2

/-- The nodes are the numbers below `n`, all of them are connected, and `m` tells their distances. -/
structure HasDistances (d : Device) (n : Nat) (m : Nat → Nat → Nat) : Prop where
  nodes : d.nodes = List.range n
  connected : d.isConnected = true
  distance : ∀ p < n, ∀ q < n, d.distance p q = .ok (some (m p q))

/-- A measure for each node that changes by at most 1 along a coupling and can always be lowered. -/
theorem hasDistances_of_descends {m : Nat → Nat → Nat} (hnodes : ∀ q, q ∈ d.nodes ↔ q < n)
    (hself : ∀ q, m q q = 0) (hstep : ∀ p q, d.adjacent p q = true → ∀ b < n, m p b ≤ m q b + 1)
    (hdown : ∀ p < n, ∀ b < n, p ≠ b → ∃ q, d.adjacent p q = true ∧ m p b = m q b + 1) : d.HasDistances n m := by
  have hdistance : ∀ p < n, ∀ b < n, d.distance p b = .ok (some (m p b)) := by
    intro p hp b hb
    rw [← hnodes] at hp
    have hmem : b ∈ d.nodes := (hnodes b).mpr hb
    refine distance_eq_ok.mpr ⟨hp, hmem, hops?_eq_of_descends (m := fun p => m p b) hmem (hself b) ?_ ?_ hp⟩
    · intro p q hpq
      exact hstep p q hpq b hb
    · intro p hp hne
      exact hdown p ((hnodes p).mp hp) b hb hne
  refine ⟨?_, isConnected_iff_distance.mpr fun p hp q hq => ?_, hdistance⟩
  · refine Ascending.eq_of_mem_iff d.nodes_ascending List.pairwise_lt_range fun q => ?_
    rw [hnodes, List.mem_range]
  · exact ⟨_, hdistance p ((hnodes p).mp hp) q ((hnodes q).mp hq)⟩

/-! ## Lines -/

theorem hasDistances_line (hd : line n = .ok d) : d.HasDistances n Nat.dist := by
  obtain ⟨e, he, hnodes, hadj⟩ := exists_line (n := n) (by rintro rfl; cases hd)
  obtain rfl : e = d := Except.ok.inj (he.symm.trans hd)
  have hbeside : ∀ p q, e.adjacent p q = true ↔ p < n ∧ q < n ∧ Nat.dist p q = 1 := by
    intro p q
    rw [hadj, Nat.dist]
    omega
  refine hasDistances_of_descends hnodes Nat.dist_self ?_ ?_
  · intro p q hpq b _
    have htriangle := Nat.dist.triangle_inequality p q b
    rw [((hbeside p q).mp hpq).2.2] at htriangle
    omega
  · intro p hp b hb hne
    obtain ⟨q, hq, hpq, hnear⟩ := exists_nearer hp hb hne
    exact ⟨q, (hbeside p q).mpr ⟨hp, hq, hpq⟩, hnear⟩

/-! ## Rings -/

/-- Two numbers that follow each other, or the first and the last of `n`. -/
def RingBeside (n p q : Nat) : Prop := q = p + 1 ∨ p = q + 1 ∨ p = 0 ∧ q = n - 1 ∨ q = 0 ∧ p = n - 1

/-- A step to the side changes the way in one direction by one; one over the closing coupling makes it the rest of the
    way in the other direction. -/
theorem dist_of_ringBeside {b : Nat} (hp : p < n) (hq : q < n) (hb : b < n) (h : RingBeside n p q) :
    Nat.dist p b ≤ Nat.dist q b + 1 ∧ Nat.dist q b ≤ Nat.dist p b + 1 ∨ Nat.dist p b + Nat.dist q b + 1 = n := by
  simp only [Nat.dist]
  rcases h with rfl | rfl | ⟨rfl, rfl⟩ | ⟨rfl, rfl⟩
  · exact .inl (by omega)
  · exact .inl (by omega)
  · exact .inr (by omega)
  · exact .inr (by omega)

theorem ringDistance_le_of_beside {b : Nat} (hp : p < n) (hq : q < n) (hb : b < n) (h : RingBeside n p q) :
    ringDistance n p b ≤ ringDistance n q b + 1 := by
  have hdist := dist_of_ringBeside hp hq hb h
  unfold ringDistance
  omega

/-- Away from a number, until the closing coupling is reached. -/
theorem exists_further {b : Nat} (hp : p < n) (hb : b < n) (hne : p ≠ b) : ∃ q < n, RingBeside n p q ∧
    (Nat.dist q b = Nat.dist p b + 1 ∨ Nat.dist p b + Nat.dist q b + 1 = n) := by
  simp only [RingBeside, Nat.dist]
  rcases Nat.lt_or_gt_of_ne hne with hlt | hgt
  · rcases Nat.eq_zero_or_pos p with rfl | hpos
    · exact ⟨n - 1, by omega, by omega, .inr (by omega)⟩
    · exact ⟨p - 1, by omega, by omega, .inl (by omega)⟩
  · rcases Nat.eq_or_lt_of_le (Nat.succ_le_of_lt hp) with rfl | hlast
    · exact ⟨0, by omega, by omega, .inr (by omega)⟩
    · exact ⟨p + 1, by omega, by omega, .inl (by omega)⟩

/-- One of the neighbours is nearer: the one towards the other number, or the one away from it where the way round is
    the shorter one. -/
theorem exists_ringBeside_nearer {b : Nat} (hp : p < n) (hb : b < n) (hne : p ≠ b) :
    ∃ q < n, RingBeside n p q ∧ ringDistance n p b = ringDistance n q b + 1 := by
  by_cases hdirect : 2 * Nat.dist p b ≤ n
  · obtain ⟨q, hq, hpq, hnear⟩ := exists_nearer hp hb hne
    refine ⟨q, hq, ?_, ?_⟩
    · rw [Nat.dist] at hpq
      unfold RingBeside
      omega
    · unfold ringDistance
      omega
  · obtain ⟨q, hq, hpq, hfar⟩ := exists_further hp hb hne
    have hlt : Nat.dist p b < n := by
      rw [Nat.dist]
      omega
    refine ⟨q, hq, hpq, ?_⟩
    unfold ringDistance
    omega

theorem hasDistances_ring (hn : 3 ≤ n) (hd : ring n = .ok d) : d.HasDistances n (ringDistance n) := by
  obtain ⟨e, he, hnodes, hadj⟩ := exists_ring hn
  obtain rfl : e = d := Except.ok.inj (he.symm.trans hd)
  refine hasDistances_of_descends hnodes ?_ ?_ ?_
  · intro q
    rw [ringDistance, Nat.dist_self, Nat.zero_min]
  · intro p q hpq b hb
    obtain ⟨hp, hq, hbeside⟩ := (hadj p q).mp hpq
    exact ringDistance_le_of_beside hp hq hb hbeside
  · intro p hp b hb hne
    obtain ⟨q, hq, hbeside, hnear⟩ := exists_ringBeside_nearer hp hb hne
    exact ⟨q, (hadj p q).mpr ⟨hp, hq, hbeside⟩, hnear⟩

/-- A line has a coupling for every number but its last. -/
theorem edges_line (hd : line n = .ok d) : d.edges = (List.range (n - 1)).map fun i => ⟨i, i + 1⟩ := by
  obtain ⟨e, he, -, hadj⟩ := exists_line (n := n) (by rintro rfl; cases hd)
  obtain rfl : e = d := Except.ok.inj (he.symm.trans hd)
  refine Ascending.eq_of_mem_iff e.edges_ascending ?_ fun x => ?_
  · refine List.pairwise_map.mpr (List.pairwise_lt_range.imp fun h => ?_)
    exact Edge.lt_def.mpr (.inl h)
  · rw [mem_edges_iff, hadj, List.mem_map]
    constructor
    · intro hx
      refine ⟨x.lo, List.mem_range.mpr (by omega), ?_⟩
      rw [← show x.hi = x.lo + 1 by omega]
    · rintro ⟨i, hi, rfl⟩
      rw [List.mem_range] at hi
      dsimp only
      omega

theorem length_edges_ring (hn : 3 ≤ n) (hd : ring n = .ok d) : d.edges.length = n := by
  rw [ring, if_neg (by omega)] at hd
  obtain ⟨l, hl, hd⟩ := bind_eq_ok.mp hd
  obtain ⟨-, -, -, -, hedges⟩ := addEdge_eq_ok hd
  have hnew : Edge.between 0 (n - 1) ∉ l.edges := by
    rw [edges_line hl, List.mem_map]
    rintro ⟨i, -, hi⟩
    simp only [Edge.between, Edge.mk.injEq] at hi
    omega
  rw [hedges, Ascending.length_insert hnew, edges_line hl, List.length_map, List.length_range]
  omega

/-! ## Stars -/

theorem hasDistances_star (hl : leaves ≠ 0) (hc : center ≤ leaves) (hd : star leaves center = .ok d) :
    d.HasDistances (leaves + 1) (starDistance center) := by
  obtain ⟨e, he, hnodes, hadj⟩ := exists_star hl hc
  obtain rfl : e = d := Except.ok.inj (he.symm.trans hd)
  refine hasDistances_of_descends (fun q => (hnodes q).trans Nat.lt_succ_iff.symm) ?_ ?_ ?_
  · intro q
    exact if_pos rfl
  · intro p q hpq b _
    obtain ⟨-, -, hne, hcenter⟩ := (hadj p q).mp hpq
    simp only [starDistance]
    grind
  · intro p hp b hb hne
    -- the center leads to every leaf, and a leaf to the center
    by_cases hpc : p = center
    · refine ⟨b, (hadj p b).mpr ⟨by omega, by omega, hne, .inl hpc⟩, ?_⟩
      simp only [starDistance, if_neg hne, if_pos (Or.inl hpc), if_pos]
    · refine ⟨center, (hadj p center).mpr ⟨by omega, hc, hpc, .inr rfl⟩, ?_⟩
      simp only [starDistance]
      grind

/-- Lines, rings and stars of admitted sizes are built: connected, on the numbers from 0 on, with the distances that
    their shapes have, and a ring with as many couplings as nodes. All other sizes and centers are refused with a
    configuration error. -/
theorem shapes_have_distances (n leaves center : Nat) :
    (n = 0 → line n = .error (.configuration .emptyLine)) ∧
    (1 ≤ n → ∃ d, line n = .ok d ∧ d.HasDistances n Nat.dist) ∧
    (n < 3 → ring n = .error (.configuration .shortRing)) ∧
    (3 ≤ n → ∃ d, ring n = .ok d ∧ d.edges.length = n ∧
      d.HasDistances n fun p q => min (Nat.dist p q) (n - Nat.dist p q)) ∧
    (leaves = 0 → star leaves center = .error (.configuration .noLeaves)) ∧
    (1 ≤ leaves → leaves < center → star leaves center = .error (.configuration (.centerOutside center leaves))) ∧
    (1 ≤ leaves → center ≤ leaves → ∃ d, star leaves center = .ok d ∧
      d.HasDistances (leaves + 1) (starDistance center)) := by
  refine ⟨fun h => if_pos h, ?_, fun h => if_pos h, ?_, fun h => if_pos h, ?_, ?_⟩
  · intro hn
    obtain ⟨d, hd, -⟩ := exists_line (Nat.ne_of_gt hn)
    exact ⟨d, hd, hasDistances_line hd⟩
  · intro hn
    obtain ⟨d, hd, -⟩ := exists_ring hn
    exact ⟨d, hd, length_edges_ring hn hd, hasDistances_ring hn hd⟩
  · intro hl hc
    exact (if_neg (Nat.ne_of_gt hl)).trans (if_pos hc)
  · intro hl hc
    obtain ⟨d, hd, -⟩ := exists_star (Nat.ne_of_gt hl) hc
    exact ⟨d, hd, hasDistances_star (Nat.ne_of_gt hl) hc hd⟩

/-- The ends of a line of five, two numbers of a ring of five with the closing coupling between them, and two leaves of
    a star with its center among them. -/
theorem shapes_have_distances_five :
    (∃ d, line 5 = .ok d ∧ d.distance 0 4 = .ok (some 4)) ∧
    ring 2 = .error (.configuration .shortRing) ∧
    (∃ d, ring 5 = .ok d ∧ d.edges.length = 5 ∧ d.distance 4 1 = .ok (some 2)) ∧
    (∃ d, star 4 2 = .ok d ∧ d.isConnected = true ∧ d.distance 1 3 = .ok (some 2) ∧
      d.distance 2 3 = .ok (some 1)) ∧
    star 4 5 = .error (.configuration (.centerOutside 5 4)) := by
  obtain ⟨-, hline, -, hring, -, -, hstar⟩ := shapes_have_distances 5 4 2
  obtain ⟨-, -, hshort, -, -, houtside, -⟩ := shapes_have_distances 2 4 5
  obtain ⟨l, hl, hline⟩ := hline (by decide)
  obtain ⟨r, hr, hedges, hring⟩ := hring (by decide)
  obtain ⟨s, hs, hstar⟩ := hstar (by decide) (by decide)
  exact ⟨⟨l, hl, hline.distance 0 (by decide) 4 (by decide)⟩, hshort (by decide),
    ⟨r, hr, hedges, hring.distance 4 (by decide) 1 (by decide)⟩,
    ⟨s, hs, hstar.connected, hstar.distance 1 (by decide) 3 (by decide), hstar.distance 2 (by decide) 3 (by decide)⟩,
    houtside (by decide) (by decide)⟩

end Device

end CircuitMapping
