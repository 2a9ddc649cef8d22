/-
  CircuitMapping.Layout.Basic — where each logical qubit of a circuit sits on a device.

  A layout lists the physical qubit of logical qubits 0, 1, 2, …; no two share one. A SWAP of two physical qubits
  exchanges their occupants, either of which may be missing. Proved: `exchange` sends every entry through the
  transposition of the two qubits (`exchange_eq_map`), so it keeps entries distinct; who sits where is one relation
  read in two directions (`logical_eq_some`).
-/
import CircuitMapping.Device.Basic
import CircuitMapping.Gate.Basic

namespace CircuitMapping

structure Layout where
  placement : List Nat
  nodup : placement.Nodup
  deriving DecidableEq, Repr

namespace Layout

/-! ## Exchanging entries of a list -/

/-- The image of `p` when `a` and `b` trade places. -/
def transpose (a b p : Nat) : Nat := if p = a then b else if p = b then a else p

/-- Puts `b` where `a` stands and `a` where `b` stands. -/
def exchange (ps : List Nat) (a b : Nat) : List Nat :=
  let moved := match ps.idxOf? a with
    | some i => ps.set i b
    | none => ps
  match ps.idxOf? b with
  | some j => moved.set j a
  | none => moved

theorem transpose_injective {a b p q : Nat} (h : transpose a b p = transpose a b q) : p = q := by
  unfold transpose at h
  split at h <;> split at h <;> (try split at h) <;> (try split at h) <;> omega

theorem idxOf?_eq_some {ps : List Nat} (h : ps.Nodup) {p i : Nat} : ps.idxOf? p = some i ↔ ps[i]? = some p := by
  rw [List.idxOf?_eq_some_iff]
  constructor
  · rintro ⟨hi, rfl, _⟩
    exact List.getElem?_eq_getElem hi
  · intro hp
    obtain ⟨hi, rfl⟩ := List.getElem?_eq_some_iff.mp hp
    refine ⟨hi, rfl, fun j hj e => ?_⟩
    have := (List.getElem?_inj (by omega) h).mp ((List.getElem?_eq_getElem (show j < ps.length by omega)).trans
      ((congrArg some e).trans (List.getElem?_eq_getElem hi).symm))
    omega

theorem exchange_eq_map {ps : List Nat} (h : ps.Nodup) (a b : Nat) : exchange ps a b = ps.map (transpose a b) := by
  have at_ : ∀ {p i j : Nat}, ps[i]? = some p → ps[j]? = some p → i = j := fun {p i j} hi hj =>
    (List.getElem?_inj (List.getElem?_eq_some_iff.mp hi).1 h).mp (hi.trans hj.symm)
  refine List.ext_getElem? fun k => ?_
  rw [List.getElem?_map]
  unfold exchange
  cases hk : ps[k]? with
  | none =>
    have hlen : ps.length ≤ k := List.getElem?_eq_none_iff.mp hk
    refine List.getElem?_eq_none_iff.mpr ?_
    split <;> split <;> simpa using hlen
  | some p =>
    have hlt := (List.getElem?_eq_some_iff.mp hk).1
    simp only [Option.map_some, transpose]
    cases ha : ps.idxOf? a with
    | none =>
      have hpa : p ≠ a := fun e => List.idxOf?_eq_none_iff.mp ha (e ▸ List.mem_of_getElem? hk)
      cases hb : ps.idxOf? b with
      | none =>
        have hpb : p ≠ b := fun e => List.idxOf?_eq_none_iff.mp hb (e ▸ List.mem_of_getElem? hk)
        simp [hpa, hpb, hk]
      | some j =>
        have hj := (idxOf?_eq_some h).mp hb
        simp only [List.getElem?_set, if_neg hpa]
        by_cases hpb : p = b
        · have : j = k := at_ hj (hpb ▸ hk)
          simp [this, hlt, hpb]
        · have : j ≠ k := fun e => hpb (Option.some.inj ((e ▸ hk).symm.trans hj))
          simp [this, hpb, hk]
    | some i =>
      have hi := (idxOf?_eq_some h).mp ha
      cases hb : ps.idxOf? b with
      | none =>
        have hpb : p ≠ b := fun e => List.idxOf?_eq_none_iff.mp hb (e ▸ List.mem_of_getElem? hk)
        simp only [List.getElem?_set, if_neg hpb]
        by_cases hpa : p = a
        · have : i = k := at_ hi (hpa ▸ hk)
          simp [this, hlt, hpa]
        · have : i ≠ k := fun e => hpa (Option.some.inj ((e ▸ hk).symm.trans hi))
          simp [this, hpa, hk]
      | some j =>
        have hj := (idxOf?_eq_some h).mp hb
        simp only [List.getElem?_set, List.length_set]
        by_cases hpb : p = b
        · have : j = k := at_ hj (hpb ▸ hk)
          by_cases hpa : p = a
          · simp [this, hlt, ← hpb, ← hpa]
          · have hba : b ≠ a := hpb ▸ hpa
            simp [this, hlt, hpb, hba]
        · have hjk : j ≠ k := fun e => hpb (Option.some.inj ((e ▸ hk).symm.trans hj))
          by_cases hpa : p = a
          · have : i = k := at_ hi (hpa ▸ hk)
            simp [hjk, this, hlt, hpa]
          · have hik : i ≠ k := fun e => hpa (Option.some.inj ((e ▸ hk).symm.trans hi))
            simp [hjk, hik, hpa, hpb, hk]

theorem nodup_exchange {ps : List Nat} (h : ps.Nodup) (a b : Nat) : (exchange ps a b).Nodup := by
  rw [exchange_eq_map h]
  exact List.Pairwise.map _ (fun _ _ hne e => hne (transpose_injective e)) h

/-! ## Layouts -/

def empty : Layout := ⟨[], .nil⟩

/-- The entries that a list holds more than once, ascending. -/
def repeated (ps : List Nat) : List Nat := Ascending.ofList (ps.filter fun p => decide (1 < ps.count p))

/-- A layout from the physical qubit of each logical one. -/
def ofList (ps : List Nat) : Except Error Layout :=
  if h : ps.Nodup then .ok ⟨ps, h⟩ else .error (.placement (.layoutRepeats (repeated ps)))

/-- Logical qubit `i` of `n` on the `i`-th lowest node of a device. -/
def lowest (n : Nat) (d : Device) : Except Error Layout :=
  if d.nodes.length < n then .error (.configuration (.lowestLayout n d.nodes.length))
  else .ok ⟨d.nodes.take n, List.Sublist.nodup (List.take_sublist n d.nodes) (Ascending.nodup d.nodes_ascending)⟩

def size (l : Layout) : Nat := l.placement.length

/-- The physical qubit of a logical one. -/
def physical (l : Layout) (i : Nat) : Except Error Nat :=
  match l.placement[i]? with
  | some p => .ok p
  | none => .error (.range (.logicalQubit i l.size))

/-- The logical qubit that sits on a physical one. -/
def logical (l : Layout) (p : Nat) : Option Nat := l.placement.idxOf? p

/-- The largest physical qubit in use, 0 when there is none. -/
def maxPhysical (l : Layout) : Nat := l.placement.foldl max 0

/-- A SWAP of two physical qubits: their occupants trade places. -/
def swap (l : Layout) (a b : Nat) : Layout := ⟨exchange l.placement a b, nodup_exchange l.nodup a b⟩

/-- Refuses a layout that uses a qubit that is not a node. -/
def checkOn (l : Layout) (d : Device) : Except Error Unit :=
  let unknown := l.placement.filter fun p => decide (p ∉ d.nodes)
  if unknown.isEmpty then .ok () else .error (.placement (.layoutUnknown (Ascending.ofList unknown)))

/-- A gate moved to the physical qubits of its logical ones. -/
def place (l : Layout) (g : Gate) : Except Error Gate := do g.retarget (← g.qubits.mapM l.physical)

def text (l : Layout) : String :=
  "[" ++ ", ".intercalate (l.placement.zipIdx.map fun e => toString e.2 ++ "->" ++ toString e.1) ++ "]"

theorem physical_eq_ok {l : Layout} {i p : Nat} : l.physical i = .ok p ↔ l.placement[i]? = some p := by
  unfold physical
  cases l.placement[i]? <;> simp

theorem logical_eq_some {l : Layout} {p i : Nat} : l.logical p = some i ↔ l.placement[i]? = some p :=
  idxOf?_eq_some l.nodup

theorem placement_swap (l : Layout) (a b : Nat) : (l.swap a b).placement = l.placement.map (transpose a b) :=
  exchange_eq_map l.nodup a b

end Layout

end CircuitMapping
