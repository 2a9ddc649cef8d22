/-
  CircuitMapping.Proofs.Placement.Choices — the edges that a simulation chooses a SWAP from.

  They lie beside the qubits in front (`edgesBeside`), so there are none exactly when all of these sit on nodes without
  couplings (`edgesBeside_eq_nil_iff`). A SWAP is found as long as one of them has a finite cost, since such a cost is
  less than the infinite one that the search for the cheapest starts with (`cheapest_ne_nil`); costs that are infinite
  or no numbers are passed over.
-/
import CircuitMapping.Proofs.Placement.Search
import CircuitMapping.Proofs.Placement.Wires

namespace CircuitMapping

/-- A node without couplings. -/
def Device.IsIsolated (d : Device) (a : Nat) : Prop := ∀ r, d.adjacent a r = false

namespace Sabre

variable {σ : Type} {s : Search} {pairs : List (Nat × Nat)} {st : State σ}

/-! ## Finite costs -/

/-- A finite number is less than infinity. -/
theorem lt_infinity_of_isFinite {c : Float} (h : c.isFinite = true) : c < 1 / 0 := by
  have hinfinity : (1 / 0 : Float).toModel.unpack = .infinity .positive := by rfl
  have hlt : c < 1 / 0 ↔ c.toModel.unpack.lt (1 / 0 : Float).toModel.unpack = true := by
    show decide (c.toModel < (1 / 0 : Float).toModel) = true ↔ _
    rw [decide_eq_true_iff]
    rfl
  have hc : c.toModel.unpack.isFinite = true := h
  rw [hlt, hinfinity]
  generalize c.toModel.unpack = u at hc
  cases u with
  | infinity sign => cases hc
  | notANumber => cases hc
  | zero sign => rfl
  | finite sign mantissa exponent hpos => rfl

theorem infinity_sub_tolerance : (1 / 0 : Float) - tolerance = 1 / 0 := by rfl

/-- An edge of finite cost is taken up while there is no other. -/
theorem keepCheapest_of_isFinite {cost : Edge → Float} {e : Edge} (hc : (cost e).isFinite = true) :
    keepCheapest cost (1 / 0, []) e = (cost e, [e]) := by
  unfold keepCheapest
  dsimp only
  rw [infinity_sub_tolerance, if_pos (lt_infinity_of_isFinite hc)]

/-- What has been taken up gives way only to another edge. -/
theorem keepCheapest_ne_nil {cost : Edge → Float} {best : Float × List Edge} (h : best.2 ≠ []) (e : Edge) :
    (keepCheapest cost best e).2 ≠ [] := by
  unfold keepCheapest
  dsimp only
  split
  · exact List.cons_ne_nil e []
  · split
    · exact List.append_ne_nil_of_left_ne_nil h [e]
    · exact h

/-- As long as nothing has been taken up, the cost to be beaten is infinite. -/
theorem keepCheapest_eq_infinity {cost : Edge → Float} {best : Float × List Edge} (h : best.2 = [] → best.1 = 1 / 0)
    {e : Edge} (hnil : (keepCheapest cost best e).2 = []) : (keepCheapest cost best e).1 = 1 / 0 := by
  unfold keepCheapest at hnil ⊢
  dsimp only at hnil ⊢
  split at hnil
  · cases hnil
  · rename_i hlt
    rw [if_neg hlt]
    split at hnil
    · exact absurd hnil (List.append_ne_nil_of_right_ne_nil _ (List.cons_ne_nil e []))
    · rename_i hnear
      rw [if_neg hnear]
      exact h hnil

/-- Among edges of which one has a finite cost there is a cheapest. -/
theorem cheapest_ne_nil {cost : Edge → Float} {edges : List Edge} {e : Edge} (he : e ∈ edges)
    (hc : (cost e).isFinite = true) : cheapest cost edges ≠ [] := by
  have hkept : ∀ (es : List Edge) (best : Float × List Edge), best.2 ≠ [] →
      (es.foldl (keepCheapest cost) best).2 ≠ [] := by
    intro es
    induction es with
    | nil => exact fun _ h => h
    | cons x es ih => exact fun best h => ih _ (keepCheapest_ne_nil h x)
  have hfold : ∀ (es : List Edge) (best : Float × List Edge), e ∈ es → (best.2 = [] → best.1 = 1 / 0) →
      (es.foldl (keepCheapest cost) best).2 ≠ [] := by
    intro es
    induction es with
    | nil => exact fun _ hm => absurd hm List.not_mem_nil
    | cons x es ih =>
      rintro ⟨c, found⟩ hm hbest
      rcases List.mem_cons.mp hm with rfl | hm
      · refine hkept es _ ?_
        by_cases hnil : found = []
        · have hinfinite : c = 1 / 0 := hbest hnil
          rw [hnil, hinfinite, keepCheapest_of_isFinite hc]
          exact List.cons_ne_nil e []
        · exact keepCheapest_ne_nil hnil e
      · exact ih _ hm fun hnil => keepCheapest_eq_infinity hbest hnil
  exact hfold edges _ he fun _ => rfl

/-! ## Edges beside the front -/

/-- A search on a device. -/
def Search.on (d : Device) (o : Options) : Search := ⟨d, d.links, .ofDevice d, o⟩

/-- The interactions in front. -/
def inFront (pairs : List (Nat × Nat)) (st : State σ) : List (Nat × Nat) :=
  (front pairs.toArray st.wires).filterMap (pairs.toArray[·]?)

/-- The edges that a SWAP is chosen from. -/
def Search.edgesBeside (s : Search) (pairs : List (Nat × Nat)) (st : State σ) : List Edge :=
  s.candidates st.layout (inFront pairs st)

/-- What the SWAP on an edge costs. -/
def Search.costOf (s : Search) (pairs : List (Nat × Nat)) (st : State σ) (e : Edge) : Float :=
  s.cost (st.layout.swap e.lo e.hi) (st.decay.map fun _ x => x * s.options.decayLambda) (inFront pairs st)
    ((ahead st.wires (front pairs.toArray st.wires) s.options.lookAhead).filterMap (pairs.toArray[·]?))

/-- Where there are edges beside the front, one of them has a finite cost. -/
def Search.Decides (s : Search) (pairs : List (Nat × Nat)) (st : State σ) : Prop :=
  s.edgesBeside pairs st ≠ [] → ∃ e ∈ s.edgesBeside pairs st, (s.costOf pairs st e).isFinite = true

theorem mem_inFront {p : Nat × Nat} :
    p ∈ inFront pairs st ↔ ∃ g ∈ front pairs.toArray st.wires, pairs[g]? = some p := by
  simp [inFront, List.mem_filterMap]

/-- Both qubits sit on nodes without couplings. -/
def IsCutOff (d : Device) (l : Layout) (p : Nat × Nat) : Prop :=
  ∀ a, l.placement[p.1]? = some a ∨ l.placement[p.2]? = some a → d.IsIsolated a

/-- There is no edge to choose from when all that is in front is cut off. -/
theorem edgesBeside_eq_nil_iff (hs : s.links = s.device.links) :
    s.edgesBeside pairs st = [] ↔ ∀ p ∈ inFront pairs st, IsCutOff s.device st.layout p := by
  rw [List.eq_nil_iff_forall_not_mem]
  constructor
  · intro h p hp a ha r
    rw [← Bool.not_eq_true]
    intro hadj
    refine h (.between a r) ((mem_candidates hs).mpr ⟨p, hp, ?_⟩)
    rcases ha with ha | ha
    · exact ⟨p.1, .inl rfl, a, r, ha, hadj, rfl⟩
    · exact ⟨p.2, .inr rfl, a, r, ha, hadj, rfl⟩
  · intro h e he
    obtain ⟨p, hp, q, hq, a, r, ha, hadj, -⟩ := (mem_candidates hs).mp he
    have hisolated : s.device.IsIsolated a := by
      rcases hq with rfl | rfl
      · exact h p hp a (.inl ha)
      · exact h p hp a (.inr ha)
    rw [hisolated r] at hadj
    cases hadj

/-! ## One SWAP -/

variable [Source σ] {st' : State σ}

/-- Where no SWAP is found, none of the edges has a finite cost. -/
theorem isFinite_of_move_eq_none (h : s.move pairs.toArray st = none) {e : Edge} (he : e ∈ s.edgesBeside pairs st) :
    (s.costOf pairs st e).isFinite = false := by
  by_contra hc
  have hne : cheapest (s.costOf pairs st) (s.edgesBeside pairs st) ≠ [] := cheapest_ne_nil he (by simpa using hc)
  obtain ⟨x, xs, hx⟩ := List.exists_cons_of_ne_nil hne
  unfold Search.costOf Search.edgesBeside inFront at hx
  unfold Search.move at h
  dsimp only at h
  rw [tryAll_layout, hx] at h
  cases h

/-- Where a choice can be made at all, a SWAP is found unless there is no edge to choose from. -/
theorem move_eq_none_iff (h : s.Decides pairs st) : s.move pairs.toArray st = none ↔ s.edgesBeside pairs st = [] := by
  constructor
  · intro hmove
    by_contra hne
    obtain ⟨e, he, hc⟩ := h hne
    rw [isFinite_of_move_eq_none hmove he] at hc
    cases hc
  · intro hnil
    unfold Search.edgesBeside inFront at hnil
    unfold Search.move
    dsimp only
    rw [tryAll_layout, hnil]
    rfl

/-- A SWAP takes nothing off a wire. -/
theorem wires_of_move (h : s.move pairs.toArray st = some st') :
    st'.wires = st.wires ∧ st'.remaining = st.remaining ∧ st'.swaps = st.swaps + 1 := by
  unfold Search.move at h
  dsimp only at h
  split at h
  · cases h
  · cases h
    exact ⟨rfl, rfl, rfl⟩

end Sabre

end CircuitMapping
