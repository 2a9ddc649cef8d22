/-
  CircuitMapping.Proofs.Placement.Wires — what lies before and behind the cursors of a simulation.

  A wire holds the interactions that are still to be executed on a qubit; those it no longer holds lie before the
  cursor of the qubit (`past`). The wires are in step (`InStep`) when each of them has lost only what comes first on
  its qubit, and every interaction lies before both of its cursors or before neither. Then an interaction is on a wire
  exactly when it touches the qubit and has not been executed (`InStep.mem_left_iff`), so it is in front when all
  earlier interactions that share a qubit with it have been executed, and it has not (`InStep.mem_front_iff`). Hence
  the first interaction that is still to be executed is in front, and no two in front share a qubit.

  Executing an interaction in front takes it off both its wires, which stay in step (`InStep.execute`).
-/
import CircuitMapping.Placement.Sabre
import Mathlib.Data.List.Basic

namespace CircuitMapping.Sabre

variable {pairs : List (Nat × Nat)} {wires : Array (List Nat)} {width : Nat} {g i j q : Nat}

/-! ## Interactions on a qubit -/

/-- The interaction at position `i` is one of the qubit `q`. -/
def Touches (pairs : List (Nat × Nat)) (i q : Nat) : Prop := ∃ p, pairs[i]? = some p ∧ (p.1 = q ∨ p.2 = q)

/-- Two interactions share a qubit. -/
def Share (pairs : List (Nat × Nat)) (i j : Nat) : Prop := ∃ q, Touches pairs i q ∧ Touches pairs j q

/-- Interactions of two different qubits of a register. -/
def Proper (width : Nat) (pairs : List (Nat × Nat)) : Prop := ∀ p ∈ pairs, p.1 ≠ p.2 ∧ p.1 < width ∧ p.2 < width

theorem Proper.of_getElem? (h : Proper width pairs) {p : Nat × Nat} (hp : pairs[i]? = some p) :
    p.1 ≠ p.2 ∧ p.1 < width ∧ p.2 < width := h p (List.mem_of_getElem? hp)

theorem Proper.lt_of_touches (h : Proper width pairs) (ht : Touches pairs i q) : q < width := by
  obtain ⟨p, hp, rfl | rfl⟩ := ht
  · exact (h.of_getElem? hp).2.1
  · exact (h.of_getElem? hp).2.2

theorem lt_length_of_touches (ht : Touches pairs i q) : i < pairs.length := by
  obtain ⟨p, hp, -⟩ := ht
  exact (List.getElem?_eq_some_iff.mp hp).1

theorem mem_positionsOn : i ∈ positionsOn pairs q ↔ Touches pairs i q := by
  unfold positionsOn Touches
  simp only [List.mem_map, List.mem_filter, Bool.or_eq_true, beq_iff_eq]
  constructor
  · rintro ⟨⟨p, k⟩, ⟨hm, hq⟩, rfl⟩
    exact ⟨p, List.mem_zipIdx_iff_getElem?.mp hm, hq⟩
  · rintro ⟨p, hp, hq⟩
    exact ⟨(p, i), ⟨List.mem_zipIdx_iff_getElem?.mpr hp, hq⟩, rfl⟩

theorem positionsOn_ascending (pairs : List (Nat × Nat)) (q : Nat) : (positionsOn pairs q).Pairwise (· < ·) := by
  have hall : (pairs.zipIdx.map (·.2)).Pairwise (· < ·) := by
    rw [List.zipIdx_map_snd]
    exact List.pairwise_lt_range'
  exact hall.sublist (List.Sublist.map _ List.filter_sublist)

/-! ## Cursors -/

/-- What is still to be executed on `q`. -/
def left (wires : Array (List Nat)) (q : Nat) : List Nat := wires[q]?.getD []

/-- The interactions of `q` before its cursor: those that its wire no longer holds. -/
def past (pairs : List (Nat × Nat)) (wires : Array (List Nat)) (q : Nat) : List Nat :=
  (positionsOn pairs q).take ((positionsOn pairs q).length - (left wires q).length)

/-- An interaction has been executed when it lies before the cursor of its first qubit. -/
def isExecuted (pairs : List (Nat × Nat)) (wires : Array (List Nat)) (i : Nat) : Bool :=
  pairs[i]?.any fun p => decide (i ∈ past pairs wires p.1)

/-- The interactions that have not been executed. -/
def pending (pairs : List (Nat × Nat)) (wires : Array (List Nat)) : List Nat :=
  (List.range pairs.length).filter fun i => !isExecuted pairs wires i

/-- Every wire has lost what comes first on its qubit, and every interaction lies before the cursors of both its qubits
    or of neither. -/
structure InStep (width : Nat) (pairs : List (Nat × Nat)) (wires : Array (List Nat)) : Prop where
  size : wires.size = width
  parts : ∀ q < width, past pairs wires q ++ left wires q = positionsOn pairs q
  together : ∀ i p, pairs[i]? = some p → (i ∈ past pairs wires p.1 ↔ i ∈ past pairs wires p.2)

theorem isExecuted_of_getElem? {p : Nat × Nat} (hp : pairs[i]? = some p) :
    isExecuted pairs wires i = true ↔ i ∈ past pairs wires p.1 := by
  simp [isExecuted, hp]

theorem mem_pending : i ∈ pending pairs wires ↔ i < pairs.length ∧ isExecuted pairs wires i = false := by
  simp [pending]

theorem pending_ascending (pairs : List (Nat × Nat)) (wires : Array (List Nat)) :
    (pending pairs wires).Pairwise (· < ·) :=
  List.pairwise_lt_range.filter _

/-- What stands before the rest of a wire is what lies before its cursor. -/
theorem past_eq_of_append {us : List Nat} (h : us ++ left wires q = positionsOn pairs q) : past pairs wires q = us := by
  unfold past
  rw [← h, List.length_append, Nat.add_sub_cancel]
  exact List.take_left

theorem left_wiresOf (hq : q < width) : left (wiresOf width pairs) q = positionsOn pairs q := by
  simp [left, wiresOf, hq]

theorem past_wiresOf (hq : q < width) : past pairs (wiresOf width pairs) q = [] :=
  past_eq_of_append (left_wiresOf hq)

/-- At first every cursor stands in front of all interactions. -/
theorem inStep_wiresOf (h : Proper width pairs) : InStep width pairs (wiresOf width pairs) where
  size := by simp [wiresOf]
  parts q hq := by rw [past_wiresOf hq, left_wiresOf hq, List.nil_append]
  together i p hp := by
    obtain ⟨-, ha, hb⟩ := h.of_getElem? hp
    rw [past_wiresOf ha, past_wiresOf hb]

theorem isExecuted_wiresOf (h : Proper width pairs) (i : Nat) : isExecuted pairs (wiresOf width pairs) i = false := by
  rcases hp : pairs[i]? with _ | p
  · simp [isExecuted, hp]
  · simp [isExecuted, hp, past_wiresOf (h.of_getElem? hp).2.1]

theorem pending_wiresOf (h : Proper width pairs) : pending pairs (wiresOf width pairs) = List.range pairs.length :=
  List.filter_eq_self.mpr fun i _ => by rw [isExecuted_wiresOf h]; rfl

namespace InStep

/-- An interaction lies before the cursor of each of its qubits if it has been executed. -/
theorem mem_past_iff (h : InStep width pairs wires) (ht : Touches pairs i q) :
    i ∈ past pairs wires q ↔ isExecuted pairs wires i = true := by
  obtain ⟨p, hp, rfl | rfl⟩ := ht
  · exact (isExecuted_of_getElem? hp).symm
  · exact (h.together i p hp).symm.trans (isExecuted_of_getElem? hp).symm

/-- A wire holds the interactions of its qubit that have not been executed. -/
theorem mem_left_iff (h : InStep width pairs wires) (hq : q < width) :
    i ∈ left wires q ↔ Touches pairs i q ∧ isExecuted pairs wires i = false := by
  have hparts := h.parts q hq
  have hnodup : (past pairs wires q ++ left wires q).Nodup := hparts ▸ Ascending.nodup (positionsOn_ascending pairs q)
  constructor
  · intro hi
    have ht : Touches pairs i q := mem_positionsOn.mp (hparts ▸ List.mem_append_right _ hi)
    refine ⟨ht, ?_⟩
    rw [← Bool.not_eq_true, ← h.mem_past_iff ht]
    exact fun hp => (List.nodup_append.mp hnodup).2.2 i hp i hi rfl
  · rintro ⟨ht, he⟩
    rcases List.mem_append.mp (hparts ▸ mem_positionsOn.mpr ht) with hp | hl
    · rw [h.mem_past_iff ht, he] at hp
      cases hp
    · exact hl

theorem left_ascending (h : InStep width pairs wires) (hq : q < width) : (left wires q).Pairwise (· < ·) :=
  (h.parts q hq ▸ positionsOn_ascending pairs q).sublist (List.sublist_append_right _ _)

/-- What has been executed was preceded by all that shares a qubit with it. -/
theorem closed (h : InStep width pairs wires) (hpairs : Proper width pairs) (hji : j < i) (hs : Share pairs j i)
    (hi : isExecuted pairs wires i = true) : isExecuted pairs wires j = true := by
  obtain ⟨q, hj, hi'⟩ := hs
  have hq := hpairs.lt_of_touches hj
  by_contra hne
  have hleft : j ∈ left wires q := (h.mem_left_iff hq).mpr ⟨hj, by simpa using hne⟩
  -- the cursor stands between the two
  have hasc : (past pairs wires q ++ left wires q).Pairwise (· < ·) := h.parts q hq ▸ positionsOn_ascending pairs q
  have := (List.pairwise_append.mp hasc).2.2 i ((h.mem_past_iff hi').mpr hi) j hleft
  omega

/-- An interaction comes first on a wire when it has not been executed, and all earlier ones of the qubit have. -/
theorem head?_left_iff (h : InStep width pairs wires) (hq : q < width) :
    (left wires q).head? = some g ↔ Touches pairs g q ∧ isExecuted pairs wires g = false ∧
      ∀ j < g, Touches pairs j q → isExecuted pairs wires j = true := by
  have hasc := h.left_ascending hq
  constructor
  · intro hg
    obtain ⟨rest, hrest⟩ := List.head?_eq_some_iff.mp hg
    obtain ⟨ht, he⟩ := (h.mem_left_iff hq).mp (hrest ▸ List.mem_cons_self ..)
    refine ⟨ht, he, fun j hj htj => ?_⟩
    by_contra hne
    have hm : j ∈ left wires q := (h.mem_left_iff hq).mpr ⟨htj, by simpa using hne⟩
    rw [hrest] at hm hasc
    rcases List.mem_cons.mp hm with rfl | hm
    · omega
    · have := (List.pairwise_cons.mp hasc).1 j hm
      omega
  · rintro ⟨ht, he, hall⟩
    have hm : g ∈ left wires q := (h.mem_left_iff hq).mpr ⟨ht, he⟩
    match hl : left wires q with
    | [] =>
      rw [hl] at hm
      cases hm
    | k :: rest =>
      obtain ⟨htk, hek⟩ := (h.mem_left_iff hq).mp (hl ▸ List.mem_cons_self ..)
      rw [hl] at hm hasc
      rcases List.mem_cons.mp hm with rfl | hm
      · rfl
      · rw [hall k ((List.pairwise_cons.mp hasc).1 g hm) htk] at hek
        cases hek

end InStep

/-! ## The front -/

theorem next?_eq_head?_left (wires : Array (List Nat)) (q : Nat) : next? wires q = (left wires q).head? := by
  unfold next? left
  cases wires[q]? <;> rfl

theorem isReady_iff : isReady pairs.toArray wires g = true ↔
    ∃ p, pairs[g]? = some p ∧ (left wires p.1).head? = some g ∧ (left wires p.2).head? = some g := by
  unfold isReady
  rw [List.getElem?_toArray]
  cases pairs[g]? with
  | none => simp
  | some p => simp [next?_eq_head?_left]

theorem mem_front_iff_isReady (wires : Array (List Nat)) :
    g ∈ front pairs.toArray wires ↔ isReady pairs.toArray wires g = true := by
  unfold front
  rw [Ascending.mem_ofList, List.mem_filter, and_iff_right_iff_imp, isReady_iff]
  rintro ⟨p, -, ha, -⟩
  rw [← next?_eq_head?_left] at ha
  obtain ⟨wire, hw, hg⟩ := Option.bind_eq_some_iff.mp ha
  exact List.mem_filterMap.mpr ⟨wire, (Array.mem_of_getElem? hw).val, hg⟩

namespace InStep

/-- An interaction is in front when all earlier ones that share a qubit with it have been executed, and it has not. -/
theorem isReady_iff (h : InStep width pairs wires) (hpairs : Proper width pairs) :
    isReady pairs.toArray wires g = true ↔ g < pairs.length ∧ isExecuted pairs wires g = false ∧
      ∀ j < g, Share pairs j g → isExecuted pairs wires j = true := by
  rw [Sabre.isReady_iff]
  constructor
  · rintro ⟨p, hp, ha, hb⟩
    obtain ⟨-, hap, hbp⟩ := hpairs.of_getElem? hp
    obtain ⟨ht, he, halla⟩ := (h.head?_left_iff hap).mp ha
    obtain ⟨-, -, hallb⟩ := (h.head?_left_iff hbp).mp hb
    refine ⟨lt_length_of_touches ht, he, ?_⟩
    rintro j hj ⟨q, hjq, p', hp', hq⟩
    cases hp.symm.trans hp'
    rcases hq with rfl | rfl
    · exact halla j hj hjq
    · exact hallb j hj hjq
  · rintro ⟨hg, he, hall⟩
    obtain ⟨p, hp⟩ : ∃ p, pairs[g]? = some p := ⟨_, List.getElem?_eq_getElem hg⟩
    obtain ⟨-, hap, hbp⟩ := hpairs.of_getElem? hp
    have hta : Touches pairs g p.1 := ⟨p, hp, .inl rfl⟩
    have htb : Touches pairs g p.2 := ⟨p, hp, .inr rfl⟩
    exact ⟨p, hp, (h.head?_left_iff hap).mpr ⟨hta, he, fun j hj ht => hall j hj ⟨p.1, ht, hta⟩⟩,
      (h.head?_left_iff hbp).mpr ⟨htb, he, fun j hj ht => hall j hj ⟨p.2, ht, htb⟩⟩⟩

theorem mem_front_iff (h : InStep width pairs wires) (hpairs : Proper width pairs) :
    g ∈ front pairs.toArray wires ↔ g < pairs.length ∧ isExecuted pairs wires g = false ∧
      ∀ j < g, Share pairs j g → isExecuted pairs wires j = true :=
  (mem_front_iff_isReady wires).trans (h.isReady_iff hpairs)

/-- The first interaction that has not been executed is in front. -/
theorem front_ne_nil (h : InStep width pairs wires) (hpairs : Proper width pairs) (hp : pending pairs wires ≠ []) :
    front pairs.toArray wires ≠ [] := by
  obtain ⟨i, rest, hi⟩ := List.exists_cons_of_ne_nil hp
  obtain ⟨hlt, he⟩ := mem_pending.mp (hi ▸ List.mem_cons_self ..)
  refine List.ne_nil_of_mem ((h.mem_front_iff hpairs).mpr ⟨hlt, he, fun j hj _ => ?_⟩)
  by_contra hne
  have hm : j ∈ pending pairs wires := mem_pending.mpr ⟨Nat.lt_trans hj hlt, by simpa using hne⟩
  have hasc := pending_ascending pairs wires
  rw [hi] at hm hasc
  rcases List.mem_cons.mp hm with rfl | hm
  · omega
  · have := (List.pairwise_cons.mp hasc).1 j hm
    omega

/-- No two interactions in front share a qubit. -/
theorem front_disjoint (h : InStep width pairs wires) (hpairs : Proper width pairs) :
    (front pairs.toArray wires).Pairwise fun i j => ¬ Share pairs i j := by
  refine List.Pairwise.imp_of_mem ?_ (Ascending.ofList_ascending _)
  intro i j hi hj hij hs
  have hexecuted := ((h.mem_front_iff hpairs).mp hj).2.2 i hij hs
  rw [((h.mem_front_iff hpairs).mp hi).2.1] at hexecuted
  cases hexecuted

end InStep

/-! ## Executing an interaction -/

/-- The wires without an interaction of `a` and `b` that comes first on both. -/
def takeOff (wires : Array (List Nat)) (a b : Nat) : Array (List Nat) :=
  (wires.modify a List.tail).modify b List.tail

theorem left_takeOff {a b : Nat} (hab : a ≠ b) (wires : Array (List Nat)) (q : Nat) :
    left (takeOff wires a b) q = if q = a ∨ q = b then (left wires q).tail else left wires q := by
  unfold left takeOff
  rw [Array.getElem?_modify, Array.getElem?_modify]
  by_cases ha : a = q
  · subst ha
    simp only [hab.symm, if_false, if_true, true_or]
    cases wires[a]? <;> rfl
  · by_cases hb : b = q
    · subst hb
      simp only [hab, if_false, if_true, or_true]
      cases wires[b]? <;> rfl
    · simp [ha, hb, Ne.symm ha, Ne.symm hb]

namespace InStep

variable {p : Nat × Nat}

theorem past_takeOff (h : InStep width pairs wires) (hpairs : Proper width pairs) (hp : pairs[g]? = some p)
    (hg : isReady pairs.toArray wires g = true) (hq : q < width) :
    past pairs (takeOff wires p.1 p.2) q ++ left (takeOff wires p.1 p.2) q = positionsOn pairs q ∧
      past pairs (takeOff wires p.1 p.2) q = past pairs wires q ++ if q = p.1 ∨ q = p.2 then [g] else [] := by
  obtain ⟨p', hp', ha, hb⟩ := Sabre.isReady_iff.mp hg
  cases hp.symm.trans hp'
  have hleft := left_takeOff (hpairs.of_getElem? hp).1 wires q
  have hparts : (past pairs wires q ++ if q = p.1 ∨ q = p.2 then [g] else []) ++ left (takeOff wires p.1 p.2) q =
      positionsOn pairs q := by
    rw [hleft, ← h.parts q hq]
    by_cases hm : q = p.1 ∨ q = p.2
    · have hhead : (left wires q).head? = some g := by
        rcases hm with rfl | rfl
        · exact ha
        · exact hb
      obtain ⟨rest, hrest⟩ := List.head?_eq_some_iff.mp hhead
      rw [if_pos hm, if_pos hm, hrest, List.append_assoc]
      rfl
    · rw [if_neg hm, if_neg hm, List.append_nil]
  have hpast := past_eq_of_append hparts
  exact ⟨by rw [hpast]; exact hparts, hpast⟩

/-- Executing what is in front keeps the wires in step. -/
theorem execute (h : InStep width pairs wires) (hpairs : Proper width pairs) (hp : pairs[g]? = some p)
    (hg : isReady pairs.toArray wires g = true) : InStep width pairs (takeOff wires p.1 p.2) where
  size := by simp [takeOff, h.size]
  parts q hq := (h.past_takeOff hpairs hp hg hq).1
  together i p' hp' := by
    obtain ⟨-, ha, hb⟩ := hpairs.of_getElem? hp'
    rw [(h.past_takeOff hpairs hp hg ha).2, (h.past_takeOff hpairs hp hg hb).2, List.mem_append, List.mem_append,
      h.together i p' hp']
    refine or_congr Iff.rfl ?_
    by_cases hi : i = g
    · subst hi
      cases hp.symm.trans hp'
      simp
    · constructor
      · intro hm
        split at hm
        · exact absurd (List.mem_singleton.mp hm) hi
        · cases hm
      · intro hm
        split at hm
        · exact absurd (List.mem_singleton.mp hm) hi
        · cases hm

theorem isExecuted_takeOff (h : InStep width pairs wires) (hpairs : Proper width pairs) (hp : pairs[g]? = some p)
    (hg : isReady pairs.toArray wires g = true) (i : Nat) :
    isExecuted pairs (takeOff wires p.1 p.2) i = true ↔ isExecuted pairs wires i = true ∨ i = g := by
  rcases hi : pairs[i]? with _ | p'
  · have hne : i ≠ g := by
      rintro rfl
      rw [hp] at hi
      cases hi
    simp [isExecuted, hi, hne]
  · have ha : p'.1 < width := (hpairs.of_getElem? hi).2.1
    rw [isExecuted_of_getElem? hi, isExecuted_of_getElem? hi, (h.past_takeOff hpairs hp hg ha).2, List.mem_append]
    refine or_congr Iff.rfl ?_
    constructor
    · intro hm
      split at hm
      · exact List.mem_singleton.mp hm
      · cases hm
    · rintro rfl
      cases hp.symm.trans hi
      simp

/-- Executing an interaction leaves one less to be executed. -/
theorem pending_takeOff (h : InStep width pairs wires) (hpairs : Proper width pairs) (hp : pairs[g]? = some p)
    (hg : isReady pairs.toArray wires g = true) :
    (pending pairs (takeOff wires p.1 p.2)).length + 1 = (pending pairs wires).length := by
  obtain ⟨hlt, he, -⟩ := (h.isReady_iff hpairs).mp hg
  have hm : g ∈ pending pairs wires := mem_pending.mpr ⟨hlt, he⟩
  have heq : pending pairs (takeOff wires p.1 p.2) = (pending pairs wires).erase g := by
    rw [(Ascending.nodup (pending_ascending pairs wires)).erase_eq_filter, pending, pending, List.filter_filter]
    refine List.filter_congr fun i _ => ?_
    have := h.isExecuted_takeOff hpairs hp hg i
    rw [Bool.eq_iff_iff]
    simp only [Bool.not_eq_true', ← Bool.not_eq_true, this, Bool.and_eq_true, bne_iff_ne]
    rw [not_or, and_comm]
  rw [heq, List.length_erase_of_mem hm]
  have := List.length_pos_of_mem hm
  omega

/-- What is in front stays there while another interaction in front is executed. -/
theorem isReady_takeOff (h : InStep width pairs wires) (hpairs : Proper width pairs) (hp : pairs[g]? = some p)
    (hg : isReady pairs.toArray wires g = true) (hi : isReady pairs.toArray wires i = true) (hne : i ≠ g) :
    isReady pairs.toArray (takeOff wires p.1 p.2) i = true := by
  obtain ⟨hlt, he, hall⟩ := (h.isReady_iff hpairs).mp hi
  refine ((h.execute hpairs hp hg).isReady_iff hpairs).mpr ⟨hlt, ?_, fun j hj hs => ?_⟩
  · rw [← Bool.not_eq_true, h.isExecuted_takeOff hpairs hp hg]
    simp [he, hne]
  · exact (h.isExecuted_takeOff hpairs hp hg j).mpr (.inl (hall j hj hs))

end InStep

/-! ## Looking ahead -/

theorem length_insert_le (x : Nat) (ys : List Nat) : (Ascending.insert x ys).length ≤ ys.length + 1 := by
  induction ys with
  | nil => exact Nat.le_refl 1
  | cons y ys ih =>
    unfold Ascending.insert
    split
    · exact Nat.le_refl _
    · split
      · exact Nat.succ_le_succ ih
      · exact Nat.le_succ _

theorem length_lookAt_le {ready seen gs : List Nat} {limit : Nat} (h : seen.length ≤ limit) :
    (lookAt ready limit seen gs).length ≤ limit := by
  induction gs generalizing seen with
  | nil => exact h
  | cons g gs ih =>
    unfold lookAt
    split
    · exact h
    · refine ih ?_
      have := length_insert_le g seen
      split <;> omega

theorem mem_lookAt {ready seen gs : List Nat} {limit : Nat} (h : g ∈ lookAt ready limit seen gs) :
    g ∈ seen ∨ g ∈ gs ∧ g ∉ ready := by
  induction gs generalizing seen with
  | nil => exact .inl h
  | cons k gs ih =>
    unfold lookAt at h
    split at h
    · exact .inl h
    · rcases ih h with h | ⟨h, hr⟩
      · split at h
        · exact .inl h
        · rename_i hk
          rcases Ascending.mem_insert.mp h with rfl | h
          · exact .inr ⟨List.mem_cons_self .., hk⟩
          · exact .inl h
      · exact .inr ⟨List.mem_cons_of_mem k h, hr⟩

/-- No more is looked at than the limit allows. -/
theorem length_ahead_le (wires : Array (List Nat)) (ready : List Nat) (limit : Nat) :
    (ahead wires ready limit).length ≤ limit := by
  have hfold : ∀ (ws : List (List Nat)) (seen : List Nat), seen.length ≤ limit →
      (ws.foldl (fun seen wire => lookAt ready limit seen wire.tail) seen).length ≤ limit := by
    intro ws
    induction ws with
    | nil => exact fun _ h => h
    | cons w ws ih => exact fun seen h => ih _ (length_lookAt_le h)
  exact hfold _ [] (Nat.zero_le _)

/-- What is looked at is behind the first of some wire, and not in front. -/
theorem mem_ahead {ready : List Nat} {limit : Nat} (h : g ∈ ahead wires ready limit) :
    (∃ q < wires.size, g ∈ (left wires q).tail) ∧ g ∉ ready := by
  have hfold : ∀ (ws : List (List Nat)) (seen : List Nat),
      g ∈ ws.foldl (fun seen wire => lookAt ready limit seen wire.tail) seen →
        g ∈ seen ∨ (∃ w ∈ ws, g ∈ w.tail) ∧ g ∉ ready := by
    intro ws
    induction ws with
    | nil => exact fun _ h => .inl h
    | cons w ws ih =>
      intro seen h
      rcases ih _ h with h | ⟨⟨w', hw', hg⟩, hr⟩
      · rcases mem_lookAt h with h | ⟨hg, hr⟩
        · exact .inl h
        · exact .inr ⟨⟨w, List.mem_cons_self .., hg⟩, hr⟩
      · exact .inr ⟨⟨w', List.mem_cons_of_mem w hw', hg⟩, hr⟩
  rcases hfold _ _ h with h | ⟨⟨w, hw, hg⟩, hr⟩
  · cases h
  · obtain ⟨q, hq, rfl⟩ := List.mem_iff_getElem.mp hw
    refine ⟨⟨q, by simpa using hq, ?_⟩, hr⟩
    have hq' : wires[q]? = some wires.toList[q] := by simp
    rwa [left, hq']

/-- What is looked at has not been executed. -/
theorem InStep.mem_pending_of_mem_ahead (h : InStep width pairs wires) {ready : List Nat} {limit : Nat}
    (hg : g ∈ ahead wires ready limit) : g ∈ pending pairs wires ∧ g ∉ ready := by
  obtain ⟨⟨q, hq, hm⟩, hr⟩ := mem_ahead hg
  obtain ⟨ht, he⟩ := (h.mem_left_iff (h.size ▸ hq)).mp (List.mem_of_mem_tail hm)
  exact ⟨mem_pending.mpr ⟨lt_length_of_touches ht, he⟩, hr⟩

end CircuitMapping.Sabre
