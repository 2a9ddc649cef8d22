/-
  CircuitMapping.Proofs.FirstPlaces — the first places of the entries of a list, when a table is filled with them one
  entry after the other.
-/
import Mathlib.Data.List.Basic

namespace CircuitMapping

/-- A table in which an entry that is there already stays has the first place of every entry. -/
theorem lookup_foldl_zipIdx {τ : Type} (lookup : τ → Nat → Option Nat) {fill : τ → Nat × Nat → τ}
    (hfill : ∀ t e q, lookup (fill t e) q = (lookup t q).or (if e.1 = q then some e.2 else none)) (ps : List Nat)
    (k : Nat) (t : τ) (q : Nat) :
    lookup ((ps.zipIdx k).foldl fill t) q = (lookup t q).or ((ps.idxOf? q).map (· + k)) := by
  induction ps generalizing k t with
  | nil => simp
  | cons p ps ih =>
    rw [List.zipIdx_cons, List.foldl_cons, ih, hfill, Option.or_assoc, List.idxOf?_cons]
    congr 1
    by_cases hp : p = q
    · simp [hp]
    · have hshift : ((ps.idxOf? q).map (· + 1)).map (· + k) = (ps.idxOf? q).map (· + (k + 1)) := by
        simp only [Option.map_map, Function.comp_def, Nat.add_assoc, Nat.add_comm 1]
      rw [if_neg hp, if_neg (by simpa using hp), hshift, Option.none_or]

end CircuitMapping
