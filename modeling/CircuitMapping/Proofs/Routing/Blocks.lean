/-
  CircuitMapping.Proofs.Routing.Blocks — the shape of a routed circuit.

  Routing puts out a `Block` for each gate of the logical circuit: SWAPs, the gate itself on the physical qubits where
  the SWAPs have brought its qubits, and SWAPs again. `Fits` says that a block is right for the layout before it, and
  `Run` that blocks one after the other are, each for the layout that the SWAPs of the ones before it leave. Only
  inserted SWAPs move the layout: a SWAP of the logical circuit is a gate like any other. A block that `Restores` a
  layout undoes its SWAPs, so a run of such blocks stays on it (`after_flatMap_inserted`). In front of the `n`-th block
  the layout is `layoutAt`, and the block fits it (`Run.fits_of_getElem?`).

  From the shape alone follow the size of the routed circuit and its number of SWAPs (`length_gates`, `countP_gates`),
  and that its gates act where the device allows it (`joins_of_mem_gates`, `onDevice_of_mem_gates`).
-/
import CircuitMapping.Proofs.Gate.Kinds
import CircuitMapping.Proofs.Layout.Exchanges

namespace CircuitMapping

/-- The gate acts on two coupled qubits. -/
def Device.Joins (d : Device) (g : Gate) : Prop := ∃ p q, g.qubits = [p, q] ∧ d.adjacent p q = true

/-! ## Where an interaction acts -/

namespace Layout

/-- The physical qubits that an interaction acts on. -/
def ends (l : Layout) (g : Gate) : Option (Nat × Nat) :=
  if g.IsInteraction then
    match g.qubits with
    | [a, b] => l.placement[a]?.bind fun p => l.placement[b]?.map fun q => (p, q)
    | _ => none
  else none

variable {l : Layout} {g : Gate} {p q : Nat}

theorem ends_eq_some : l.ends g = some (p, q) ↔
    g.IsInteraction ∧ ∃ a b, g.qubits = [a, b] ∧ l.placement[a]? = some p ∧ l.placement[b]? = some q := by
  unfold ends
  constructor
  · intro h
    split at h
    · rename_i hi
      obtain ⟨a, b, -, hab⟩ := Gate.qubits_of_isInteraction hi
      rw [hab] at h
      obtain ⟨p', hp, h⟩ := Option.bind_eq_some_iff.mp h
      obtain ⟨q', hq, h⟩ := Option.map_eq_some_iff.mp h
      cases h
      exact ⟨hi, a, b, hab, hp, hq⟩
    · cases h
  · rintro ⟨hi, a, b, hab, hp, hq⟩
    rw [if_pos hi, hab]
    simp [hp, hq]

theorem exists_ends (hi : g.IsInteraction) (hg : ∀ q ∈ g.qubits, q < l.size) : ∃ p q, l.ends g = some (p, q) := by
  obtain ⟨a, b, -, hab⟩ := Gate.qubits_of_isInteraction hi
  rw [hab] at hg
  exact ⟨_, _, ends_eq_some.mpr ⟨hi, a, b, hab, List.getElem?_eq_getElem (hg a (by simp)),
    List.getElem?_eq_getElem (hg b (by simp))⟩⟩

/-- No interaction is of one physical qubit with itself. -/
theorem ne_of_ends (h : l.ends g = some (p, q)) : p ≠ q := by
  obtain ⟨hi, a, b, hab, hp, hq⟩ := ends_eq_some.mp h
  obtain ⟨a', b', hne, hab'⟩ := Gate.qubits_of_isInteraction hi
  cases hab.symm.trans hab'
  rintro rfl
  exact hne (placement_injective hp hq)

theorem mem_nodes_of_ends {d : Device} (hl : l.OnDevice d) (h : l.ends g = some (p, q)) :
    p ∈ d.nodes ∧ q ∈ d.nodes := by
  obtain ⟨-, a, b, -, hp, hq⟩ := ends_eq_some.mp h
  exact ⟨hl p (List.mem_of_getElem? hp), hl q (List.mem_of_getElem? hq)⟩

end Layout

/-! ## Blocks -/

/-- What is put out for one gate of the logical circuit. -/
structure Block where
  /-- The SWAPs inserted in front of the gate. -/
  before : List Exchange
  /-- The gate of the logical circuit. -/
  logical : Gate
  /-- The gate on physical qubits. -/
  placed : Gate
  /-- The SWAPs inserted behind it. -/
  behind : List Exchange
  deriving DecidableEq, Repr

namespace Block

def gates (b : Block) : List Gate := b.before.map Exchange.gate ++ b.placed :: b.behind.map Exchange.gate

def inserted (b : Block) : List Exchange := b.before ++ b.behind

/-- The block is right for the layout `l` before it. -/
structure Fits (d : Device) (l : Layout) (b : Block) : Prop where
  coupled : ∀ x ∈ b.inserted, d.adjacent x.a x.b = true
  placed : (l.after b.before).Places b.logical b.placed
  /-- Only an interaction gets SWAPs, and it gets its qubits together. -/
  kind : ∃ k, b.logical.kind = .ok k ∧ (k.needsAdjacency = false → b.inserted = []) ∧
    (k.needsAdjacency = true → d.Joins b.placed)

/-- The block takes the layout `l` back to what it was, and has SWAPs only where the qubits are apart. -/
structure Restores (d : Device) (l : Layout) (b : Block) : Prop where
  behind : b.behind = b.before.reverse
  needed : b.before ≠ [] → ∃ p q, l.ends b.logical = some (p, q) ∧ d.adjacent p q = false

/-- Blocks one after the other from the layout `l` to the layout `l'`. -/
inductive Run (d : Device) : Layout → List Block → Layout → Prop
  | nil (l : Layout) : Run d l [] l
  | cons {l l' : Layout} {b : Block} {bs : List Block} :
      b.Fits d l → Run d (l.after b.inserted) bs l' → Run d l (b :: bs) l'

variable {d : Device}

/-! ## Layouts along a run -/

theorem Run.fits_head {l l' : Layout} {b : Block} {bs : List Block} (h : Run d l (b :: bs) l') : b.Fits d l := by
  cases h; assumption

theorem Run.final {l l' : Layout} {bs : List Block} (h : Run d l bs l') :
    l' = l.after (bs.flatMap inserted) := by
  induction h with
  | nil l => rfl
  | cons _ _ ih => rw [ih, List.flatMap_cons, Layout.after_append]

theorem Run.onDevice {l l' : Layout} {bs : List Block} (h : Run d l bs l') (hl : l.OnDevice d) : l'.OnDevice d := by
  induction h with
  | nil l => exact hl
  | cons hb _ ih => exact ih (Layout.onDevice_after hl hb.coupled)

/-- Every block of a run fits a layout that is on the device and as large as the first one. -/
theorem Run.fits_of_mem {l l' : Layout} {bs : List Block} (h : Run d l bs l') (hl : l.OnDevice d) {b : Block}
    (hb : b ∈ bs) : ∃ m : Layout, m.OnDevice d ∧ b.Fits d m := by
  induction h with
  | nil l => cases hb
  | cons hf _ ih =>
    rcases List.mem_cons.mp hb with rfl | hb
    · exact ⟨_, hl, hf⟩
    · exact ih (Layout.onDevice_after hl hf.coupled) hb

theorem Restores.after_inserted {l : Layout} {b : Block} (h : b.Restores d l) : l.after b.inserted = l := by
  rw [inserted, Layout.after_append, h.behind, Layout.after_reverse]

theorem after_flatMap_inserted {l : Layout} {bs : List Block} (h : ∀ b ∈ bs, b.Restores d l) :
    l.after (bs.flatMap inserted) = l := by
  induction bs with
  | nil => rfl
  | cons b bs ih =>
    rw [List.flatMap_cons, Layout.after_append, (h b (List.mem_cons_self ..)).after_inserted]
    exact ih fun c hc => h c (List.mem_cons_of_mem b hc)

/-- Blocks that restore a layout all fit it. -/
theorem Run.fits_of_restores {l l' : Layout} {bs : List Block} (h : Run d l bs l') (hr : ∀ b ∈ bs, b.Restores d l)
    {b : Block} (hb : b ∈ bs) : b.Fits d l := by
  induction h with
  | nil l => cases hb
  | cons hf _ ih =>
    rw [(hr _ (List.mem_cons_self ..)).after_inserted] at ih
    rcases List.mem_cons.mp hb with rfl | hb
    · exact hf
    · exact ih (fun c hc => hr c (List.mem_cons_of_mem _ hc)) hb

/-! ## The layout in front of a block -/

/-- The layout in front of the `n`-th of some blocks, counted from 0. -/
def layoutAt (l : Layout) (bs : List Block) (n : Nat) : Layout := l.after ((bs.take n).flatMap inserted)

theorem layoutAt_succ (l : Layout) (b : Block) (bs : List Block) (n : Nat) :
    layoutAt l (b :: bs) (n + 1) = layoutAt (l.after b.inserted) bs n := by
  rw [layoutAt, List.take_succ_cons, List.flatMap_cons, Layout.after_append]
  rfl

theorem Run.fits_of_getElem? {l l' : Layout} {bs : List Block} (h : Run d l bs l') {n : Nat} {b : Block}
    (hb : bs[n]? = some b) : b.Fits d (layoutAt l bs n) := by
  induction h generalizing n with
  | nil l => cases hb
  | cons hfits _ ih =>
    cases n with
    | zero =>
      cases hb
      exact hfits
    | succ n =>
      rw [layoutAt_succ]
      exact ih hb

/-! ## Counting -/

theorem length_gates (b : Block) : b.gates.length = 1 + b.inserted.length := by
  simp [gates, inserted]
  omega

theorem countP_gates (b : Block) (h : b.placed.op = b.logical.op) :
    b.gates.countP (fun g => g.op == .swap) =
      (if b.logical.op = .swap then 1 else 0) + b.inserted.length := by
  have hx : ∀ xs : List Exchange, (xs.map Exchange.gate).countP (fun g => g.op == .swap) = xs.length := by
    intro xs
    rw [List.countP_map]
    exact List.countP_eq_length.mpr fun x _ => rfl
  simp only [gates, inserted, List.countP_append, List.countP_cons, List.length_append, hx, h, beq_iff_eq]
  omega

theorem length_flatMap_gates (bs : List Block) :
    (bs.flatMap gates).length = bs.length + (bs.flatMap inserted).length := by
  induction bs with
  | nil => rfl
  | cons b bs ih =>
    simp only [List.flatMap_cons, List.length_append, List.length_cons, ih, length_gates]
    omega

theorem Run.countP_flatMap_gates {l l' : Layout} {bs : List Block} (h : Run d l bs l') :
    (bs.flatMap gates).countP (fun g => g.op == .swap) =
      (bs.map (·.logical)).countP (fun g => g.op == .swap) + (bs.flatMap inserted).length := by
  induction h with
  | nil l => rfl
  | cons hb _ ih =>
    simp only [List.flatMap_cons, List.countP_append, List.map_cons, List.countP_cons, List.length_append, ih,
      countP_gates _ hb.placed.op, beq_iff_eq]
    omega

/-! ## Where the gates act -/

theorem joins_gate {x : Exchange} (h : d.adjacent x.a x.b = true) : d.Joins x.gate := ⟨x.a, x.b, rfl, h⟩

theorem mem_gates {b : Block} {g : Gate} : g ∈ b.gates ↔ g = b.placed ∨ ∃ x ∈ b.inserted, x.gate = g := by
  simp only [gates, inserted, List.mem_append, List.mem_cons, List.mem_map]
  constructor
  · rintro (⟨x, hx, rfl⟩ | rfl | ⟨x, hx, rfl⟩)
    · exact .inr ⟨x, .inl hx, rfl⟩
    · exact .inl rfl
    · exact .inr ⟨x, .inr hx, rfl⟩
  · rintro (rfl | ⟨x, hx | hx, rfl⟩)
    · exact .inr (.inl rfl)
    · exact .inl ⟨x, hx, rfl⟩
    · exact .inr (.inr ⟨x, hx, rfl⟩)

/-- Every interaction put out is on coupled qubits, whether it was inserted or not. -/
theorem joins_of_mem_gates {l : Layout} {b : Block} (h : b.Fits d l) {g : Gate} (hg : g ∈ b.gates)
    (hi : g.IsInteraction) : d.Joins g := by
  rcases mem_gates.mp hg with rfl | ⟨x, hx, rfl⟩
  · obtain ⟨k, hk, -, hj⟩ := h.kind
    refine hj ((Gate.needsAdjacency_iff hk).mpr ?_)
    unfold Gate.IsInteraction at hi ⊢
    rwa [h.placed.op] at hi
  · exact joins_gate (h.coupled x hx)

theorem onDevice_of_mem_gates {l : Layout} (hl : l.OnDevice d) {b : Block} (h : b.Fits d l) {g : Gate}
    (hg : g ∈ b.gates) : ∀ q ∈ g.qubits, q ∈ d.nodes := by
  rcases mem_gates.mp hg with rfl | ⟨x, hx, rfl⟩
  · refine h.placed.onDevice (Layout.onDevice_after hl ?_)
    intro x hx
    exact h.coupled x (List.mem_append_left _ hx)
  · have hm := Device.mem_nodes_of_adjacent (h.coupled x hx)
    intro q hq
    rcases List.mem_cons.mp hq with rfl | hq
    · exact hm.1
    · rw [List.mem_singleton.mp hq]
      exact hm.2

end Block

end CircuitMapping
