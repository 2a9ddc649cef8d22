/-
  CircuitMapping.Proofs.Gate.Kinds — which gates routing has to bring together, and which have to keep their order.

  The number of qubits of a gate is that of its operation (`length_of_arity`) and never 0 (`qubits_ne_nil`). So the
  gates whose qubits have to be coupled are those of the three two-qubit operations (`needsAdjacency_iff`), each on two
  different qubits (`qubits_of_isInteraction`). A gate has no kind exactly when it is too wide (`kind_of_isTooWide`,
  `exists_kind`). The order of two gates matters when they meet on a qubit (`Meets`).
-/
import CircuitMapping.Gate.Basic
import Mathlib.Data.List.Basic

namespace CircuitMapping.Gate

theorem length_of_arity (g : Gate) {n : Nat} (h : g.op.arity? = some n) : g.qubits.length = n := by
  have hq := (Operation.fault?_eq_none.mp g.valid).1
  unfold Operation.qubitFault? at hq
  rw [h] at hq
  simp only at hq
  split at hq
  · assumption
  · cases hq

theorem qubits_ne_nil (g : Gate) : g.qubits ≠ [] := by
  have hq := (Operation.fault?_eq_none.mp g.valid).1
  intro hnil
  rw [hnil] at hq
  cases hop : g.op <;> rw [hop] at hq <;> cases hq

/-- The operations on two qubits, barriers apart. -/
def IsInteraction (g : Gate) : Prop := g.op = .cnot ∨ g.op = .cz ∨ g.op = .swap

instance (g : Gate) : Decidable g.IsInteraction := inferInstanceAs (Decidable (_ ∨ _ ∨ _))

theorem length_of_isInteraction {g : Gate} (h : g.IsInteraction) : g.qubits.length = 2 := by
  refine g.length_of_arity ?_
  rcases h with h | h | h <;> rw [h] <;> rfl

theorem needsAdjacency_iff {g : Gate} {k : Kind} (hk : g.kind = .ok k) :
    k.needsAdjacency = true ↔ g.IsInteraction := by
  have hlen := g.length_of_arity (n := g.op.arity?.getD 0)
  unfold kind at hk
  unfold IsInteraction
  split at hk
  · rename_i hb
    cases hk
    simp [Kind.needsAdjacency, hb.1]
  · rename_i hb
    split at hk
    · rename_i h1
      cases hk
      constructor
      · intro h; cases h
      · intro h
        have := length_of_isInteraction h
        omega
    · split at hk
      · rename_i h2
        have hop : g.op = .cnot ∨ g.op = .cz ∨ g.op = .swap := by
          cases hop : g.op <;> rw [hop] at hlen hb <;> simp_all [Operation.arity?]
        cases hk
        refine ⟨fun _ => hop, fun _ => ?_⟩
        split <;> rfl
      · cases hk

theorem qubits_of_isInteraction {g : Gate} (h : g.IsInteraction) : ∃ a b, a ≠ b ∧ g.qubits = [a, b] := by
  obtain ⟨a, b, hab⟩ := List.length_eq_two.mp (length_of_isInteraction h)
  have hn := g.nodup
  rw [hab] at hn
  exact ⟨a, b, by simpa using hn, hab⟩

/-! ## Gates without a kind -/

/-- The gates on three or more qubits: nothing can bring those together. -/
def IsTooWide (g : Gate) : Prop := g.op = .ccx ∨ g.op = .barrier ∧ 3 ≤ g.qubits.length

theorem kind_of_isTooWide {g : Gate} (h : g.IsTooWide) :
    g.kind = .error (.unsupported (.routing g.op g.qubits.length)) := by
  have hlen : 3 ≤ g.qubits.length := by
    rcases h with h | h
    · exact Nat.le_of_eq (g.length_of_arity (by rw [h]; rfl)).symm
    · exact h.2
  unfold kind
  rw [if_neg (fun hb => by omega), if_neg (by omega), if_neg (by omega)]

theorem exists_kind {g : Gate} (h : ¬ g.IsTooWide) : ∃ k, g.kind = .ok k := by
  have hlen := g.length_of_arity (n := g.op.arity?.getD 0)
  unfold kind
  unfold IsTooWide at h
  split
  · exact ⟨_, rfl⟩
  · rename_i hb
    split
    · exact ⟨_, rfl⟩
    · rename_i h1
      split
      · exact ⟨_, rfl⟩
      · rename_i h2
        -- no operation but those of wide gates has another number of qubits
        exfalso
        cases hop : g.op <;> rw [hop] at hlen hb h <;> simp [Operation.arity?] at hlen hb h <;> omega

theorem not_isTooWide_of_kind {g : Gate} {k : Kind} (h : g.kind = .ok k) : ¬ g.IsTooWide := by
  intro hw
  rw [kind_of_isTooWide hw] at h
  cases h

theorem not_isTooWide_of_isInteraction {g : Gate} (h : g.IsInteraction) : ¬ g.IsTooWide := by
  rintro (hw | hw) <;> rcases h with h | h | h <;> simp [h] at hw

/-! ## Gates that meet -/

/-- The gates share a qubit. -/
def Meets (g h : Gate) : Prop := ∃ q ∈ g.qubits, q ∈ h.qubits

instance (g h : Gate) : Decidable (g.Meets h) := inferInstanceAs (Decidable (∃ q ∈ g.qubits, q ∈ h.qubits))

theorem Meets.symm {g h : Gate} (m : g.Meets h) : h.Meets g := by
  obtain ⟨q, hg, hh⟩ := m
  exact ⟨q, hh, hg⟩

end CircuitMapping.Gate
