/-
  CircuitMapping.Proofs.Placement.Requests — what an accepted request is.

  A request collected from entries has ascending keys (`keys_ofEntries_ascending`). When it is accepted for a circuit
  its keys are the logical qubits of the circuit in order, and its values the layout (`layout_eq_ok`,
  `keys_eq_range`); so its entries tell where each logical qubit is (`mem_iff_of_layout`). Conversely a request for a
  layout on the device is accepted, with that layout (`layout_of_mem_iff`).
-/
import CircuitMapping.Placement.Requested
import CircuitMapping.Proofs.Layout.Exchanges
import Mathlib.Data.List.Perm.Subperm

namespace CircuitMapping.Request

open Success

theorem keys_put (k v : Nat) (r : Request) :
    keys (Ascending.put k v r) = Ascending.insert k r.keys := by
  induction r with
  | nil => rfl
  | cons e r ih =>
    obtain ⟨k', v'⟩ := e
    simp only [keys] at ih
    simp only [Ascending.put, keys, List.map_cons, Ascending.insert]
    by_cases h : k < k'
    · simp [h]
    · by_cases h' : k' < k
      · simp [h, h', ih]
      · have : k = k' := by omega
        simp [this]

theorem keys_ofEntries_ascending (entries : List (Nat × Nat)) : (ofEntries entries).keys.Pairwise (· < ·) := by
  have h : ∀ r : Request, r.keys.Pairwise (· < ·) →
      (keys (entries.foldl (fun r e => Ascending.put e.1 e.2 r) r)).Pairwise (· < ·) := by
    induction entries with
    | nil => intro r hr; exact hr
    | cons e es ih =>
      intro r hr
      refine ih _ ?_
      rw [keys_put]
      exact Ascending.insert_ascending hr
  exact h [] List.Pairwise.nil

/-- Every check of an accepted request passed. -/
theorem layout_eq_ok {r : Request} {c : Circuit} {d : Device} {l : Layout} (h : r.layout c d = .ok l) :
    (∀ i, i ∈ r.keys ↔ i < c.width) ∧ l.placement = r.values ∧ l.OnDevice d := by
  unfold layout at h
  dsimp only at h
  obtain ⟨-, h⟩ := guard_eq_ok.mp h
  obtain ⟨hkeys, h⟩ := guard_eq_ok.mp h
  obtain ⟨-, h⟩ := guard_eq_ok.mp h
  obtain ⟨hnodes, h⟩ := guard_eq_ok.mp h
  have hplacement := Layout.ofList_eq_ok h
  rw [Bool.or_eq_true, Bool.not_eq_true', Bool.not_eq_true', not_or, Bool.not_eq_false, Bool.not_eq_false,
    List.isEmpty_iff, List.isEmpty_iff] at hkeys
  obtain ⟨hmissing, hextra⟩ := hkeys
  refine ⟨?_, hplacement, ?_⟩
  · intro i
    constructor
    · intro hi
      have := List.filter_eq_nil_iff.mp hextra i hi
      simpa using this
    · intro hi
      have := List.filter_eq_nil_iff.mp hmissing i (List.mem_range.mpr hi)
      simpa using this
  · intro p hp
    rw [hplacement] at hp
    rw [Bool.not_eq_true', Bool.not_eq_false, List.isEmpty_iff] at hnodes
    have hnone : p ∉ r.unknown d := by rw [hnodes]; exact List.not_mem_nil
    rw [unknown, Ascending.mem_ofList, List.mem_filter] at hnone
    simpa [hp] using hnone

/-- A request for exactly the qubits of the circuit, on distinct nodes of the device, is accepted. -/
theorem exists_layout {r : Request} {c : Circuit} {d : Device} (hkeys : r.keys = List.range c.width)
    (hdistinct : r.values.Nodup) (hnodes : ∀ q ∈ r.values, q ∈ d.nodes) :
    ∃ l, r.layout c d = .ok l ∧ l.placement = r.values := by
  have hlen : r.values.length = c.width := by
    rw [← List.length_range (n := c.width), ← hkeys, keys, values, List.length_map, List.length_map]
  have hempty : d.isEmpty = false := by
    obtain ⟨q, hq⟩ := List.exists_mem_of_length_pos (hlen ▸ c.width_pos)
    exact List.isEmpty_eq_false_iff.mpr (List.ne_nil_of_mem (hnodes q hq))
  have hmissing : r.missing c.width = [] := by
    refine List.filter_eq_nil_iff.mpr fun i hi => ?_
    simpa [hkeys] using hi
  have hextra : r.extra c.width = [] := by
    refine List.filter_eq_nil_iff.mpr fun i hi => ?_
    rw [hkeys, List.mem_range] at hi
    simpa using hi
  have hrepeated : Layout.repeated r.values = [] := by
    have hnone : (r.values.filter fun q => decide (1 < r.values.count q)) = [] := by
      refine List.filter_eq_nil_iff.mpr fun q _ => ?_
      have := List.nodup_iff_count.mp hdistinct q
      simpa using this
    rw [Layout.repeated, hnone]
    rfl
  have hunknown : r.unknown d = [] := by
    have hnone : (r.values.filter fun q => decide (q ∉ d.nodes)) = [] := by
      refine List.filter_eq_nil_iff.mpr fun q hq => ?_
      simpa using hnodes q hq
    rw [unknown, hnone]
    rfl
  refine ⟨⟨r.values, hdistinct⟩, ?_, rfl⟩
  unfold layout
  simp only [hempty, hmissing, hextra, hrepeated, hunknown]
  exact dif_pos hdistinct

/-- A request is refused for the device or for itself. -/
theorem layout_eq_error {r : Request} {c : Circuit} {d : Device} {e : Error} (h : r.layout c d = .error e) :
    (∃ a, e = .configuration a) ∨ ∃ a, e = .placement a := by
  unfold layout at h
  dsimp only at h
  rcases guard_eq_error.mp h with ⟨-, rfl⟩ | ⟨-, h⟩
  · exact .inl ⟨_, rfl⟩
  rcases guard_eq_error.mp h with ⟨-, rfl⟩ | ⟨-, h⟩
  · exact .inr ⟨_, rfl⟩
  rcases guard_eq_error.mp h with ⟨-, rfl⟩ | ⟨-, h⟩
  · exact .inr ⟨_, rfl⟩
  rcases guard_eq_error.mp h with ⟨-, rfl⟩ | ⟨-, h⟩
  · exact .inr ⟨_, rfl⟩
  unfold Layout.ofList at h
  split at h
  · cases h
  · cases h
    exact .inr ⟨_, rfl⟩

theorem keys_eq_range {r : Request} (hr : r.keys.Pairwise (· < ·)) {n : Nat} (h : ∀ i, i ∈ r.keys ↔ i < n) :
    r.keys = List.range n :=
  Ascending.eq_of_mem_iff hr List.pairwise_lt_range fun i => (h i).trans List.mem_range.symm

theorem size_layout {r : Request} (hr : r.keys.Pairwise (· < ·)) {c : Circuit} {d : Device} {l : Layout}
    (h : r.layout c d = .ok l) : l.size = c.width := by
  obtain ⟨hk, hp, -⟩ := layout_eq_ok h
  have hlen : r.keys.length = r.values.length := by simp [keys, values]
  rw [Layout.size, hp, ← hlen, keys_eq_range hr hk, List.length_range]

/-- With the logical qubits as its keys a request is told by its values. -/
theorem mem_iff_of_keys {r : Request} {n : Nat} (h : r.keys = List.range n) (i p : Nat) :
    (i, p) ∈ r ↔ r.values[i]? = some p := by
  have hkey : ∀ j (hj : j < r.length), r[j].1 = j := by
    intro j hj
    have hget := List.getElem_of_eq h (i := j) (by simpa [keys] using hj)
    simpa [keys] using hget
  rw [values, List.getElem?_map]
  constructor
  · intro hm
    obtain ⟨j, hj, hjp⟩ := List.mem_iff_getElem.mp hm
    obtain rfl : j = i := by rw [← hkey j hj, hjp]
    rw [List.getElem?_eq_getElem hj, hjp]
    rfl
  · intro hm
    obtain ⟨e, he, rfl⟩ := Option.map_eq_some_iff.mp hm
    obtain ⟨hi, rfl⟩ := List.getElem?_eq_some_iff.mp he
    rw [show (i, r[i].2) = r[i] from Prod.ext (hkey i hi).symm rfl]
    exact List.getElem_mem hi

/-- The entries of an accepted request tell the layout. -/
theorem mem_iff_of_layout {r : Request} (hr : r.keys.Pairwise (· < ·)) {c : Circuit} {d : Device} {l : Layout}
    (h : r.layout c d = .ok l) (i p : Nat) : (i, p) ∈ r ↔ l.placement[i]? = some p := by
  obtain ⟨hk, hp, -⟩ := layout_eq_ok h
  rw [hp, mem_iff_of_keys (keys_eq_range hr hk)]

/-- A request whose entries tell a layout of the circuit on the device is accepted, with that layout. -/
theorem layout_of_mem_iff {r : Request} (hr : r.keys.Pairwise (· < ·)) {c : Circuit} {d : Device} {l : Layout}
    (hsize : l.size = c.width) (hon : l.OnDevice d) (h : ∀ i p : Nat, (i, p) ∈ r ↔ l.placement[i]? = some p) :
    r.layout c d = .ok l := by
  have hkeys : r.keys = List.range c.width := by
    refine keys_eq_range hr fun i => ?_
    rw [← hsize]
    constructor
    · intro hi
      obtain ⟨e, he, rfl⟩ := List.mem_map.mp hi
      exact (List.getElem?_eq_some_iff.mp ((h e.1 e.2).mp he)).1
    · intro hi
      exact List.mem_map.mpr ⟨(i, l.placement[i]), (h i _).mpr (List.getElem?_eq_getElem hi), rfl⟩
  have hvalues : r.values = l.placement := by
    refine List.ext_getElem? fun i => Option.ext fun p => ?_
    rw [← mem_iff_of_keys hkeys, h]
  obtain ⟨l', hl', hp⟩ := exists_layout (r := r) (d := d) hkeys (by rw [hvalues]; exact l.nodup)
    (by rw [hvalues]; exact hon)
  rw [hl', Layout.ext (hp.trans hvalues)]

/-- Even with repeated keys every logical qubit has a place. -/
theorem width_le_size {r : Request} {c : Circuit} {d : Device} {l : Layout} (h : r.layout c d = .ok l) :
    c.width ≤ l.size := by
  obtain ⟨hk, hp, -⟩ := layout_eq_ok h
  have hsub : List.range c.width ⊆ r.keys := by
    intro i hi
    exact (hk i).mpr (List.mem_range.mp hi)
  have hlen := (List.nodup_range.subperm hsub).length_le
  simpa [Layout.size, hp, keys, values] using hlen

end CircuitMapping.Request
