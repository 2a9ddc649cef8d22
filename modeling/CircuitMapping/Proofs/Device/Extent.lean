/-
  CircuitMapping.Proofs.Device.Extent — the highest node of a device, and registers that reach up to it.

  A device whose node numbers have a successor among the 64-bit words (`InWords`) gets a register of one qubit more than
  its highest node is numbered: no layout on it and no circuit that fits it asks for more (`registerSize_eq`).
-/
import CircuitMapping.Proofs.Highest
import CircuitMapping.Proofs.Layout.Exchanges
import CircuitMapping.Routing.Routed
import Mathlib.Data.List.Perm.Subperm

namespace CircuitMapping

open Success

namespace Device

/-- Every node has a successor among the 64-bit words. -/
def InWords (d : Device) : Prop := ∀ q ∈ d.nodes, q + 1 < Word.count

theorem maxNode_eq_ok {d : Device} {last : Nat} (h : d.maxNode = .ok last) :
    last ∈ d.nodes ∧ ∀ q ∈ d.nodes, q ≤ last := by
  unfold maxNode at h
  split at h
  · rename_i q hq
    cases h
    obtain ⟨ns, hns⟩ := List.getLast?_eq_some_iff.mp hq
    have ha := d.nodes_ascending
    rw [hns] at ha ⊢
    refine ⟨by simp, ?_⟩
    intro p hp
    rcases List.mem_append.mp hp with hp | hp
    · exact Nat.le_of_lt ((List.pairwise_append.mp ha).2.2 p hp last (List.mem_singleton_self last))
    · exact Nat.le_of_eq (List.mem_singleton.mp hp)
  · cases h

theorem maxNode_eq_error {d : Device} {e : Error} (h : d.maxNode = .error e) : e = .configuration .noNodes := by
  unfold maxNode at h
  split at h
  · cases h
  · cases h; rfl

theorem exists_maxNode {d : Device} (h : d.nodes ≠ []) : ∃ last, d.maxNode = .ok last := by
  unfold maxNode
  rw [List.getLast?_eq_some_getLast h]
  exact ⟨_, rfl⟩

theorem length_nodes_le {d : Device} {last : Nat} (h : d.maxNode = .ok last) : d.nodes.length ≤ last + 1 := by
  have hsub : d.nodes ⊆ List.range (last + 1) := by
    intro q hq
    have := (maxNode_eq_ok h).2 q hq
    exact List.mem_range.mpr (by omega)
  have := ((Ascending.nodup d.nodes_ascending).subperm hsub).length_le
  rwa [List.length_range] at this

theorem InWords.succ {d : Device} (hd : d.InWords) {q : Nat} (hq : q ∈ d.nodes) : Word.succ q = q + 1 :=
  Word.succ_of_lt (hd q hq)

end Device

/-- A layout on a device has no more qubits than the device. -/
theorem Layout.size_le_of_onDevice {d : Device} {l : Layout} (hl : l.OnDevice d) : l.size ≤ d.nodes.length :=
  (l.nodup.subperm hl).length_le

theorem Layout.maxPhysical_le {d : Device} {l : Layout} (hl : l.OnDevice d) {last : Nat} (h : d.maxNode = .ok last) :
    l.maxPhysical ≤ last := by
  have hm : l.placement.foldl (fun m p => max m (id p)) 0 ≤ last :=
    foldl_max_le_iff.mpr ⟨Nat.zero_le _, fun p hp => (Device.maxNode_eq_ok h).2 p (hl p hp)⟩
  exact hm

/-- A register for a circuit on a device ends at the device's highest node. -/
theorem Routed.registerSize_of_maxNode {c : Circuit} {d : Device} {l : Layout} (hd : d.InWords) (hl : l.OnDevice d)
    (hc : c.width ≤ d.nodes.length) {last : Nat} (h : d.maxNode = .ok last) :
    registerSize c d l = .ok (last + 1) := by
  have hmem := (Device.maxNode_eq_ok h).1
  have hsucc := hd.succ hmem
  have hword := hd last hmem
  have hmax := Layout.maxPhysical_le hl h
  have hphys : Word.succ l.maxPhysical = l.maxPhysical + 1 := Word.succ_of_lt (by omega)
  have hlen := Device.length_nodes_le h
  exact bind_eq_ok.mpr ⟨last, h, pure_eq_ok.mpr (by omega)⟩

theorem Routed.registerSize_eq {c : Circuit} {d : Device} {l : Layout} {w : Nat} (hd : d.InWords) (hl : l.OnDevice d)
    (hc : c.width ≤ d.nodes.length) (h : registerSize c d l = .ok w) :
    ∃ last, d.maxNode = .ok last ∧ w = last + 1 := by
  obtain ⟨last, hlast, -⟩ := bind_eq_ok.mp h
  rw [registerSize_of_maxNode hd hl hc hlast] at h
  cases h
  exact ⟨last, hlast, rfl⟩

end CircuitMapping
