/-
  CircuitMapping.Proofs.Placement.Simulation — the loops of a simulation, and what holds at every point of them.

  The outer loop runs while something remains to be executed; the inner one goes over the front in rounds until a
  round executes nothing, and then a SWAP is chosen. `Search.next` takes one step of this, with no bound on the steps,
  and `Search.Visits` are the points that a simulation gets to. A round goes on with the front that it began with while
  interactions of it are executed; the invariant that carries it is that what is left of that front is still in front
  (`Point.Sound`), since no two interactions in front share a qubit.

  So the books are kept at every point visited (`sound_of_visits`). Every round that executes something leaves less to
  be executed, so the rounds come to an end (`leads_drain`), and so does the simulation, with the state that
  `Search.simulate` computes (`leads_run`). All of this is `simulation_keeps_books`.
-/
import CircuitMapping.Proofs.Placement.Choices
import Mathlib.Logic.Relation

namespace CircuitMapping.Sabre

variable {σ : Type} {s : Search} {width : Nat} {pairs : List (Nat × Nat)} {st st' : State σ} {g : Nat}

/-! ## Points of a simulation -/

/-- Where a simulation stands. -/
inductive Point (σ : Type) where
  /-- Before the test whether anything remains to be executed. -/
  | head (st : State σ)
  /-- In a round over the front: what of it is still to be looked at, and whether the round has executed anything. -/
  | round (st : State σ) (todo : List Nat) (progress : Bool)
  /-- Behind both loops. -/
  | ended (st : State σ)

def Point.state : Point σ → State σ
  | head st => st
  | round st _ _ => st
  | ended st => st

/-- Whether the qubits of an interaction are coupled where they are. -/
def Search.isTogether (s : Search) (pairs : List (Nat × Nat)) (st : State σ) (g : Nat) : Bool :=
  pairs.toArray[g]?.bind (s.gap st.layout.placement.toArray) == some 1

/-- The number of SWAPs after which a simulation is given up. -/
def Search.limit (s : Search) (pairs : List (Nat × Nat)) : Nat := pairs.length * s.device.nodes.length

/-- The state before anything is executed. -/
def Search.start (s : Search) (width : Nat) (pairs : List (Nat × Nat)) (l : Layout) (source : σ) : State σ :=
  ⟨wiresOf width pairs, l, .ofList (s.device.nodes.map fun p => (p, (0 : Float))), 0, pairs.length, source⟩

variable [Source σ]

/-- One step of the loops; none behind them. -/
def Search.next (s : Search) (pairs : List (Nat × Nat)) : Point σ → Option (Point σ)
  | .head st => some (if st.remaining = 0 then .ended st else .round st (front pairs.toArray st.wires) false)
  | .round st (g :: todo) progress =>
    some (if s.isTogether pairs st g then .round (st.execute pairs.toArray g) todo true else .round st todo progress)
  | .round st [] true => some (.round st (front pairs.toArray st.wires) false)
  | .round st [] false =>
    some (if st.remaining = 0 ∨ s.limit pairs ≤ st.swaps then .ended st
      else match s.move pairs.toArray st with
        | none => .ended st
        | some st' => .head st')
  | .ended _ => none

/-- The loops get from one point to another. -/
def Search.Leads (s : Search) (pairs : List (Nat × Nat)) : Point σ → Point σ → Prop :=
  Relation.ReflTransGen fun a b => s.next pairs a = some b

/-- The points that a simulation gets to. -/
def Search.Visits (s : Search) (width : Nat) (pairs : List (Nat × Nat)) (l : Layout) (source : σ) : Point σ → Prop :=
  s.Leads pairs (.head (s.start width pairs l source))

/-! ## The books -/

/-- The wires are in step, and the number of interactions that are still to be executed is right. -/
structure Books (width : Nat) (pairs : List (Nat × Nat)) (st : State σ) : Prop where
  inStep : InStep width pairs st.wires
  remaining : st.remaining = (pending pairs st.wires).length

omit [Source σ] in
theorem execute_eq {p : Nat × Nat} (hp : pairs[g]? = some p) (st : State σ) :
    st.execute pairs.toArray g = { st with wires := takeOff st.wires p.1 p.2, remaining := st.remaining - 1 } := by
  unfold State.execute
  rw [List.getElem?_toArray, hp]
  rfl

omit [Source σ] in
/-- An interaction has its qubits where they were, whatever is executed. -/
theorem isTogether_execute (s : Search) (st : State σ) (g i : Nat) :
    s.isTogether pairs (st.execute pairs.toArray g) i = s.isTogether pairs st i := by
  unfold Search.isTogether
  rw [(execute_keeps pairs.toArray st g).1]

omit [Source σ] in
theorem Books.start (h : Proper width pairs) (s : Search) (l : Layout) (source : σ) :
    Books width pairs (s.start width pairs l source) where
  inStep := inStep_wiresOf h
  remaining := by
    rw [Search.start, pending_wiresOf h, List.length_range]

omit [Source σ] in
theorem Books.execute (hb : Books width pairs st) (h : Proper width pairs)
    (hg : isReady pairs.toArray st.wires g = true) :
    Books width pairs (st.execute pairs.toArray g) ∧ (st.execute pairs.toArray g).remaining + 1 = st.remaining := by
  obtain ⟨p, hp, -⟩ := isReady_iff.mp hg
  have hlen := hb.inStep.pending_takeOff h hp hg
  have hremaining := hb.remaining
  rw [execute_eq hp]
  exact ⟨⟨hb.inStep.execute h hp hg, by dsimp only; omega⟩, by dsimp only; omega⟩

omit [Source σ] in
theorem Books.front_ne_nil (hb : Books width pairs st) (h : Proper width pairs) (hr : 0 < st.remaining) :
    front pairs.toArray st.wires ≠ [] :=
  hb.inStep.front_ne_nil h (List.ne_nil_of_length_pos (hb.remaining ▸ hr))

theorem Books.move (hb : Books width pairs st) (hm : s.move pairs.toArray st = some st') : Books width pairs st' := by
  obtain ⟨hwires, hremaining, -⟩ := wires_of_move hm
  exact ⟨hwires ▸ hb.inStep, by rw [hremaining, hb.remaining, hwires]⟩

/-- The books are kept, and what is left of the front that a round began with is still in front. -/
def Point.Sound (width : Nat) (pairs : List (Nat × Nat)) : Point σ → Prop
  | head st => Books width pairs st
  | round st todo _ => Books width pairs st ∧ todo.Nodup ∧ ∀ g ∈ todo, isReady pairs.toArray st.wires g = true
  | ended st => Books width pairs st

omit [Source σ] in
theorem Point.Sound.books {a : Point σ} (h : a.Sound width pairs) : Books width pairs a.state := by
  cases a with
  | head st => exact h
  | round st todo progress => exact h.1
  | ended st => exact h

omit [Source σ] in
/-- A round begins with the whole front. -/
theorem sound_round (hb : Books width pairs st) :
    (Point.round st (front pairs.toArray st.wires) false).Sound width pairs :=
  ⟨hb, Ascending.nodup (Ascending.ofList_ascending _), fun _ hg => (mem_front_iff_isReady _).mp hg⟩

theorem sound_next (h : Proper width pairs) {a b : Point σ} (ha : a.Sound width pairs) (hab : s.next pairs a = some b) :
    b.Sound width pairs := by
  cases a with
  | head st =>
    cases hab
    split
    · exact ha
    · exact sound_round ha
  | round st todo progress =>
    obtain ⟨hb, hnodup, hready⟩ := ha
    cases todo with
    | cons g todo =>
      obtain ⟨hnot, hnodup⟩ := List.nodup_cons.mp hnodup
      obtain ⟨hg, htodo⟩ := List.forall_mem_cons.mp hready
      cases hab
      split
      · refine ⟨(hb.execute h hg).1, hnodup, fun i hi => ?_⟩
        obtain ⟨p, hp, -⟩ := isReady_iff.mp hg
        have hne : i ≠ g := fun e => hnot (e ▸ hi)
        rw [execute_eq hp]
        exact hb.inStep.isReady_takeOff h hp hg (htodo i hi) hne
      · exact ⟨hb, hnodup, htodo⟩
    | nil =>
      cases progress with
      | true =>
        cases hab
        exact sound_round hb
      | false =>
        cases hab
        split
        · exact hb
        · split
          · exact hb
          · rename_i hm
            exact hb.move hm
  | ended st => cases hab

theorem sound_of_leads (h : Proper width pairs) {a b : Point σ} (ha : a.Sound width pairs) (hab : s.Leads pairs a b) :
    b.Sound width pairs := by
  unfold Search.Leads at hab
  induction hab with
  | refl => exact ha
  | tail _ hbc ih => exact sound_next h ih hbc

theorem sound_of_visits (h : Proper width pairs) {l : Layout} {source : σ} {a : Point σ}
    (ha : s.Visits width pairs l source a) : a.Sound width pairs := by
  have hstart : (Point.head (s.start width pairs l source)).Sound width pairs := Books.start h s l source
  exact sound_of_leads h hstart ha

/-! ## The rounds come to an end -/

/-- A round executes those of its front that are together. -/
theorem leads_round (s : Search) (pairs : List (Nat × Nat)) (todo : List Nat) (st : State σ) (progress : Bool) :
    s.Leads pairs (.round st todo progress)
      (.round ((todo.filter (s.isTogether pairs st)).foldl (State.execute pairs.toArray) st) []
        (progress || todo.any (s.isTogether pairs st))) := by
  induction todo generalizing st progress with
  | nil =>
    rw [List.any_nil, Bool.or_false]
    exact .refl
  | cons g todo ih =>
    by_cases hg : s.isTogether pairs st g = true
    · have hstep : s.next pairs (.round st (g :: todo) progress) =
          some (.round (st.execute pairs.toArray g) todo true) :=
        congrArg some (if_pos hg)
      have hsame : s.isTogether pairs (st.execute pairs.toArray g) = s.isTogether pairs st :=
        funext (isTogether_execute s st g)
      have hrest := ih (st.execute pairs.toArray g) true
      rw [hsame, Bool.true_or] at hrest
      rw [List.filter_cons_of_pos hg, List.any_cons, hg, Bool.true_or, Bool.or_true]
      exact .head hstep hrest
    · have hstep : s.next pairs (.round st (g :: todo) progress) = some (.round st todo progress) :=
        congrArg some (if_neg hg)
      rw [List.filter_cons_of_neg hg, List.any_cons, Bool.eq_false_iff.mpr hg, Bool.false_or]
      exact .head hstep (ih st progress)

omit [Source σ] in
theorem executable_eq (s : Search) (pairs : List (Nat × Nat)) (st : State σ) :
    s.executable pairs.toArray st = (front pairs.toArray st.wires).filter (s.isTogether pairs st) := rfl

omit [Source σ] in
/-- Executing some of what is in front leaves the rest to be executed. -/
theorem Books.foldl_execute (h : Proper width pairs) {gs : List Nat} (hb : Books width pairs st) (hnodup : gs.Nodup)
    (hgs : ∀ g ∈ gs, isReady pairs.toArray st.wires g = true) :
    Books width pairs (gs.foldl (State.execute pairs.toArray) st) ∧
      (gs.foldl (State.execute pairs.toArray) st).remaining + gs.length = st.remaining ∧
      ∀ i, isExecuted pairs (gs.foldl (State.execute pairs.toArray) st).wires i = true ↔
        isExecuted pairs st.wires i = true ∨ i ∈ gs := by
  induction gs generalizing st with
  | nil => exact ⟨hb, rfl, fun i => by simp⟩
  | cons g gs ih =>
    obtain ⟨hnot, hnodup⟩ := List.nodup_cons.mp hnodup
    obtain ⟨hg, hgs⟩ := List.forall_mem_cons.mp hgs
    obtain ⟨hb', hless⟩ := hb.execute h hg
    obtain ⟨p, hp, -⟩ := isReady_iff.mp hg
    obtain ⟨hbooks, hlen, hexecuted⟩ := ih hb' hnodup fun i hi => by
      rw [execute_eq hp]
      exact hb.inStep.isReady_takeOff h hp hg (hgs i hi) fun e => hnot (e ▸ hi)
    refine ⟨hbooks, ?_, fun i => ?_⟩
    · rw [List.foldl_cons, List.length_cons]
      omega
    · rw [List.foldl_cons, hexecuted, execute_eq hp, List.mem_cons, ← or_assoc]
      exact or_congr_left (hb.inStep.isExecuted_takeOff h hp hg i)

omit [Source σ] in
/-- The same for all that can be executed. -/
theorem Books.foldl_executable (h : Proper width pairs) (hb : Books width pairs st) (s : Search) :
    Books width pairs ((s.executable pairs.toArray st).foldl (State.execute pairs.toArray) st) ∧
      ((s.executable pairs.toArray st).foldl (State.execute pairs.toArray) st).remaining +
        (s.executable pairs.toArray st).length = st.remaining ∧
      ∀ i, isExecuted pairs ((s.executable pairs.toArray st).foldl (State.execute pairs.toArray) st).wires i = true ↔
        isExecuted pairs st.wires i = true ∨ i ∈ s.executable pairs.toArray st := by
  obtain ⟨-, hnodup, hready⟩ := sound_round hb
  rw [executable_eq]
  exact hb.foldl_execute h (hnodup.filter _) fun g hg => hready g (List.mem_filter.mp hg).1

/-- As many rounds as there are interactions to be executed are enough to reach a round that executes nothing. -/
theorem leads_drain (h : Proper width pairs) {n : Nat} (hb : Books width pairs st) (hn : st.remaining ≤ n) :
    s.Leads pairs (.round st (front pairs.toArray st.wires) false) (.round (s.drain pairs.toArray n st) [] false) := by
  have hround := leads_round s pairs (front pairs.toArray st.wires) st false
  rw [← executable_eq, Bool.false_or] at hround
  induction n generalizing st with
  | zero =>
    have hnil : front pairs.toArray st.wires = [] := by
      by_contra hne
      obtain ⟨g, hg⟩ := List.exists_mem_of_ne_nil _ hne
      have := (hb.execute h ((mem_front_iff_isReady _).mp hg)).2
      omega
    rw [hnil]
    exact .refl
  | succ n ih =>
    unfold Search.drain
    split
    · rename_i hnil
      have hnone : (front pairs.toArray st.wires).any (s.isTogether pairs st) = false := by
        rw [executable_eq, List.filter_eq_nil_iff] at hnil
        exact List.any_eq_false.mpr hnil
      rwa [hnil, hnone] at hround
    · rename_i g gs hgs
      have hsome : (front pairs.toArray st.wires).any (s.isTogether pairs st) = true := by
        have hm : g ∈ s.executable pairs.toArray st := hgs ▸ List.mem_cons_self ..
        obtain ⟨hg, htogether⟩ := List.mem_filter.mp (executable_eq s pairs st ▸ hm)
        exact List.any_eq_true.mpr ⟨g, hg, htogether⟩
      obtain ⟨hb', hless, -⟩ := hb.foldl_executable h s
      rw [hgs] at hb' hless
      rw [hgs, hsome] at hround
      rw [List.length_cons] at hless
      have hagain : s.next pairs (.round ((g :: gs).foldl (State.execute pairs.toArray) st) [] true) = some _ := rfl
      exact hround.trans (.head hagain (ih hb' (by omega) (leads_round s pairs _ _ false)))

/-! ## The simulation comes to an end -/

/-- As many SWAPs as the limit leaves are enough to get behind both loops. -/
theorem leads_run (h : Proper width pairs) {n : Nat} (hb : Books width pairs st) (hn : st.swaps + n = s.limit pairs) :
    s.Leads pairs (.head st) (.ended (s.run pairs.toArray n st)) := by
  induction n generalizing st with
  | zero =>
    unfold Search.run
    by_cases h0 : st.remaining = 0
    · rw [h0]
      exact .single (congrArg some (if_pos h0))
    · refine .head (congrArg some (if_neg h0)) ((leads_drain h hb (Nat.le_refl _)).tail ?_)
      refine congrArg some (if_pos (.inr ?_))
      rw [(drain_keeps s pairs.toArray st.remaining st).2]
      omega
  | succ n ih =>
    unfold Search.run
    dsimp only
    by_cases h0 : st.remaining = 0
    · rw [h0]
      show s.Leads pairs (.head st) (.ended (if st.remaining = 0 then st else _))
      rw [if_pos h0]
      exact .single (congrArg some (if_pos h0))
    · have hdrain := leads_drain (s := s) h hb (Nat.le_refl _)
      have hbooks : Books width pairs (s.drain pairs.toArray st.remaining st) :=
        (sound_of_leads h (sound_round hb) hdrain).books
      have hswaps := (drain_keeps s pairs.toArray st.remaining st).2
      refine .head (congrArg some (if_neg h0)) (hdrain.trans ?_)
      split
      · rename_i hdone
        exact .single (congrArg some (if_pos (.inl hdone)))
      · rename_i hleft
        have hroom : ¬ ((s.drain pairs.toArray st.remaining st).remaining = 0 ∨
            s.limit pairs ≤ (s.drain pairs.toArray st.remaining st).swaps) := by
          omega
        split
        · rename_i hm
          refine .single (congrArg some ((if_neg hroom).trans ?_))
          rw [hm]
        · rename_i st' hm
          have hstep : s.next pairs (.round (s.drain pairs.toArray st.remaining st) [] false) = some (.head st') := by
            refine congrArg some ((if_neg hroom).trans ?_)
            rw [hm]
          exact .head hstep (ih (hbooks.move hm) (by have := (wires_of_move hm).2.2; omega))

/-- From within a round the loop over rounds comes to an end before another SWAP is chosen. -/
theorem exists_leads_settled (h : Proper width pairs) {todo : List Nat} {progress : Bool}
    (ha : (Point.round st todo progress).Sound width pairs) :
    ∃ st', s.Leads pairs (.round st todo progress) (.round st' [] false) ∧ st'.swaps = st.swaps := by
  have hround := leads_round s pairs todo st progress
  have hswaps := (foldl_execute_keeps pairs.toArray (todo.filter (s.isTogether pairs st)) st).2
  generalize (todo.filter (s.isTogether pairs st)).foldl (State.execute pairs.toArray) st = st₁ at hround hswaps
  generalize (progress || todo.any (s.isTogether pairs st)) = progress₁ at hround
  cases progress₁ with
  | false => exact ⟨st₁, hround, hswaps⟩
  | true =>
    have hb : Books width pairs st₁ := (sound_of_leads h ha hround).books
    have hagain : s.next pairs (.round st₁ [] true) = some (.round st₁ (front pairs.toArray st₁.wires) false) := rfl
    exact ⟨_, hround.trans (.head hagain (leads_drain h hb (Nat.le_refl _))),
      (drain_keeps s pairs.toArray st₁.remaining st₁).2.trans hswaps⟩

theorem visits_simulate (h : Proper width pairs) (s : Search) (l : Layout) (source : σ) :
    s.Visits width pairs l source (.ended (s.simulate width pairs l source)) := by
  refine leads_run h (Books.start h s l source) ?_
  exact Nat.zero_add _

/-- Behind the loops nothing remains, or the limit has been reached, or no SWAP has a finite cost. -/
theorem exit_of_visits {l : Layout} {source : σ} (hv : s.Visits width pairs l source (.ended st)) :
    st.remaining = 0 ∨ s.limit pairs ≤ st.swaps ∨
      ∀ e ∈ s.edgesBeside pairs st, (s.costOf pairs st e).isFinite = false := by
  rcases Relation.ReflTransGen.cases_tail hv with heq | ⟨a, -, ha⟩
  · cases heq
  · cases a with
    | head st₁ =>
      have ha := Option.some.inj ha
      split at ha
      · rename_i hdone
        cases ha
        exact .inl hdone
      · cases ha
    | round st₁ todo progress =>
      cases todo with
      | cons g todo =>
        have ha := Option.some.inj ha
        split at ha
        · cases ha
        · cases ha
      | nil =>
        cases progress with
        | true => cases ha
        | false =>
          have ha := Option.some.inj ha
          split at ha
          · rename_i hdone
            cases ha
            exact hdone.imp_right .inl
          · split at ha
            · rename_i hm
              cases ha
              exact .inr (.inr fun e he => isFinite_of_move_eq_none hm he)
            · cases ha
    | ended st₁ => cases ha

/-! ## The books of a simulation -/

/-- What holds of the wires, the front and what is looked at beyond it. -/
structure Kept (width : Nat) (pairs : List (Nat × Nat)) (lookAhead : Nat) (st : State σ) : Prop where
  parts : ∀ q < width, past pairs st.wires q ++ left st.wires q = positionsOn pairs q
  together : ∀ i p, pairs[i]? = some p → (i ∈ past pairs st.wires p.1 ↔ i ∈ past pairs st.wires p.2)
  remaining : st.remaining = (pending pairs st.wires).length
  closed : ∀ i j, j < i → Share pairs j i → isExecuted pairs st.wires i = true → isExecuted pairs st.wires j = true
  front_ne_nil : 0 < st.remaining → front pairs.toArray st.wires ≠ []
  disjoint : (front pairs.toArray st.wires).Pairwise fun i j => ¬ Share pairs i j
  length_ahead : (ahead st.wires (front pairs.toArray st.wires) lookAhead).length ≤ lookAhead
  ahead : ∀ g ∈ ahead st.wires (front pairs.toArray st.wires) lookAhead,
    g ∈ pending pairs st.wires ∧ g ∉ front pairs.toArray st.wires

omit [Source σ] in
theorem Books.kept (hb : Books width pairs st) (h : Proper width pairs) (lookAhead : Nat) :
    Kept width pairs lookAhead st where
  parts := hb.inStep.parts
  together := hb.inStep.together
  remaining := hb.remaining
  closed _ _ := hb.inStep.closed h
  front_ne_nil := hb.front_ne_nil h
  disjoint := hb.inStep.front_disjoint h
  length_ahead := length_ahead_le _ _ _
  ahead _ := hb.inStep.mem_pending_of_mem_ahead

/-- At every point that the loops of a simulation get to: every interaction lies before both of its cursors or before
    neither, as many remain as lie behind them, and what has been executed was preceded by all that shares a qubit with
    it; while something remains the front is not empty, no two interactions in it share a qubit, and what is looked at
    beyond it has neither been executed nor is in front. The rounds come to an end before each SWAP, and both loops do,
    with the state that is computed: nothing remains, or the limit is reached, or no SWAP has a finite cost. -/
theorem simulation_keeps_books {s : Search} {width : Nat} {pairs : List (Nat × Nat)} (h : Proper width pairs)
    (l : Layout) (source : σ) :
    (∀ a, s.Visits width pairs l source a → Kept width pairs s.options.lookAhead a.state) ∧
    (∀ st todo progress, s.Visits width pairs l source (.round st todo progress) →
      ∃ st', s.Leads pairs (.round st todo progress) (.round st' [] false) ∧ st'.swaps = st.swaps) ∧
    s.Visits width pairs l source (.ended (s.simulate width pairs l source)) ∧
    ((s.simulate width pairs l source).remaining = 0 ∨ s.limit pairs ≤ (s.simulate width pairs l source).swaps ∨
      ∀ e ∈ s.edgesBeside pairs (s.simulate width pairs l source),
        (s.costOf pairs (s.simulate width pairs l source) e).isFinite = false) := by
  refine ⟨fun a ha => ?_, fun st todo progress ha => ?_, visits_simulate h s l source, ?_⟩
  · exact (sound_of_visits h ha).books.kept h _
  · exact exists_leads_settled h (sound_of_visits h ha)
  · exact exit_of_visits (visits_simulate h s l source)

/-- Five nodes in a row. -/
def fiveInARow : Device :=
  ⟨[2, 3, 5, 8, 13], [⟨2, 3⟩, ⟨3, 5⟩, ⟨5, 8⟩, ⟨8, 13⟩], by decide, by decide, by decide⟩

/-- Four qubits on them, with one of the nodes left free. -/
def scattered : Layout := ⟨[2, 5, 13, 3], by decide⟩

/-- Interactions of these that wait for each other, the first of qubits that are not coupled. -/
def tangled : List (Nat × Nat) := [(0, 1), (1, 2), (0, 3), (2, 3), (1, 3)]

/-- Four SWAPs bring them all together. -/
theorem simulation_keeps_books_tangled : Proper 4 tangled ∧
    ((Search.on fiveInARow {}).simulate 4 tangled scattered Lowest.mk).swaps = 4 ∧
    ((Search.on fiveInARow {}).simulate 4 tangled scattered Lowest.mk).remaining = 0 ∧
    (Search.on fiveInARow {}).Visits 4 tangled scattered Lowest.mk
      (.ended ((Search.on fiveInARow {}).simulate 4 tangled scattered Lowest.mk)) ∧
    ∀ a, (Search.on fiveInARow {}).Visits 4 tangled scattered Lowest.mk a → Kept 4 tangled 10 a.state := by
  have hproper : Proper 4 tangled := by unfold Proper; decide
  obtain ⟨hkept, -, hends, -⟩ := simulation_keeps_books (s := .on fiveInARow {}) hproper scattered Lowest.mk
  exact ⟨hproper, by decide +kernel, by decide +kernel, hends, hkept⟩

end CircuitMapping.Sabre
