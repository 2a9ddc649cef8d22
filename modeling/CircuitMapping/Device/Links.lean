/-
  CircuitMapping.Device.Links — the coupled qubits of every qubit, ready to be looked up.

  A search over a device asks for the neighbours of one qubit after another. `Device.links` reads the couplings once
  into a table. Proved: what the table gives for a qubit is its list of partners (`partners_links`).
-/
import CircuitMapping.Device.Basic
import Std.Data.TreeMap.Lemmas

namespace CircuitMapping

structure Links where
  table : Std.TreeMap Nat (List Nat)

namespace Links

/-- The qubits coupled to `q`, ascending. -/
def partners (l : Links) (q : Nat) : List Nat := l.table.getD q []

/-- Puts `p` before the partners of `q`. -/
def push (l : Links) (q p : Nat) : Links := ⟨l.table.insert q (p :: l.partners q)⟩

/-- The links of a list of edges: every edge is entered at both its ends. -/
def ofEdges (es : List Edge) : Links := es.foldr (fun e l => (l.push e.lo e.hi).push e.hi e.lo) ⟨∅⟩

theorem partners_push (l : Links) (q p r : Nat) :
    (l.push q p).partners r = if q = r then p :: l.partners r else l.partners r := by
  simp only [partners, push, Std.TreeMap.getD_insert, Nat.compare_eq_eq]
  split
  · rename_i h; rw [h]
  · rfl

theorem partners_ofEdges {es : List Edge} (h : ∀ e ∈ es, e.lo < e.hi) (q : Nat) :
    (ofEdges es).partners q = es.filterMap (Edge.other? q) := by
  induction es with
  | nil => simp [ofEdges, partners]
  | cons e es ih =>
    have hlt := h e (List.mem_cons_self ..)
    have ih := ih fun f hf => h f (List.mem_cons_of_mem _ hf)
    simp only [ofEdges, List.foldr_cons, partners_push, List.filterMap_cons, Edge.other?] at ih ⊢
    rw [ih]
    by_cases hl : e.lo = q
    · have : e.hi ≠ q := by omega
      simp [hl, this]
    · by_cases hh : e.hi = q <;> simp [hl, hh]

end Links

namespace Device

def links (d : Device) : Links := .ofEdges d.edges

theorem partners_links (d : Device) (q : Nat) : d.links.partners q = d.partners q :=
  Links.partners_ofEdges (fun e he => (d.edges_proper e he).1) q

end Device

end CircuitMapping
