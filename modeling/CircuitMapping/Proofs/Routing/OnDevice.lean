/-
  CircuitMapping.Proofs.Routing.OnDevice — a routed circuit can be executed on its device.

  Whichever router put the circuit out, by shortest paths or on a requested layout, and whatever was drawn on the way:
  its interactions act on coupled qubits, all its gates on nodes, its register ends at the highest node, and the final
  layout has a node of its own for every logical qubit (`routed_on_device`). It all follows from the shape of the
  routed circuit and from where its first layout lies.
-/
import CircuitMapping.Proofs.Device.Extent
import CircuitMapping.Proofs.Placement.Requests
import CircuitMapping.Proofs.Routing.Replay

namespace CircuitMapping.Routing

open Success

/-- Every gate put out is one of a block that fits a layout on the device. -/
theorem BlocksOf.exists_fits {d : Device} {c : Circuit} {r : Routed} {bs : List Block} (h : BlocksOf d c r bs)
    (hl : r.initial.OnDevice d) {g : Gate} (hg : g ∈ r.circuit.gates) :
    ∃ (b : Block) (m : Layout), m.OnDevice d ∧ b.Fits d m ∧ g ∈ b.gates := by
  rw [h.gates] at hg
  obtain ⟨b, hb, hg⟩ := List.mem_flatMap.mp hg
  obtain ⟨m, hm, hfits⟩ := h.run.fits_of_mem hl hb
  exact ⟨b, m, hm, hfits, hg⟩

theorem BlocksOf.joins {d : Device} {c : Circuit} {r : Routed} {bs : List Block} (h : BlocksOf d c r bs)
    (hl : r.initial.OnDevice d) {g : Gate} (hg : g ∈ r.circuit.gates) (hi : g.IsInteraction) : d.Joins g := by
  obtain ⟨b, m, -, hfits, hg⟩ := h.exists_fits hl hg
  exact Block.joins_of_mem_gates hfits hg hi

theorem BlocksOf.onDevice {d : Device} {c : Circuit} {r : Routed} {bs : List Block} (h : BlocksOf d c r bs)
    (hl : r.initial.OnDevice d) {g : Gate} (hg : g ∈ r.circuit.gates) : ∀ q ∈ g.qubits, q ∈ d.nodes := by
  obtain ⟨b, m, hm, hfits, hg⟩ := h.exists_fits hl hg
  exact Block.onDevice_of_mem_gates hm hfits hg

theorem BlocksOf.size_final {d : Device} {c : Circuit} {r : Routed} {bs : List Block} (h : BlocksOf d c r bs) :
    r.final.size = r.initial.size := by
  rw [h.run.final, Layout.size_after]

/-- An outcome that starts from a layout of the circuit on the device and has the register of the device. -/
structure Grounded (d : Device) (c : Circuit) (r : Routed) : Prop where
  blocks : ∃ bs, BlocksOf d c r bs
  size : r.initial.size = c.width
  onDevice : r.initial.OnDevice d
  register : ∃ last, d.maxNode = .ok last ∧ r.circuit.width = last + 1

theorem grounded_of_route {o : Options} {c : Circuit} {d : Device} {initial : Option Layout} {r : Routed}
    (hd : d.InWords) (h : route o c d initial = .ok r) : Grounded d c r := by
  obtain ⟨hc, hs, hw, bs, hbs, -⟩ := routeWith_spec h
  obtain ⟨hsize, hon⟩ := hs.fits hc
  exact ⟨⟨bs, hbs⟩, hsize, hon, Routed.registerSize_eq hd hon (checkInputs_eq_ok hc).1 hw⟩

theorem grounded_of_routePinned {o : Options} {entries : List (Nat × Nat)} {c : Circuit} {d : Device} {r : Routed}
    (hd : d.InWords) (h : routePinned o (.ofEntries entries) c d = .ok r) : Grounded d c r := by
  obtain ⟨hs, ⟨last, hlast, hw⟩, bs, hbs, -⟩ := routePinnedWith_spec h
  have hsize := Request.size_layout (Request.keys_ofEntries_ascending entries) hs
  refine ⟨⟨bs, hbs⟩, hsize, (Request.layout_eq_ok hs).2.2, last, hlast, ?_⟩
  rw [hw, hd.succ (Device.maxNode_eq_ok hlast).1]

/-- What routing puts out can be executed on the device. -/
theorem routed_on_device {o : Options} {c : Circuit} {d : Device} {r : Routed} (hd : d.InWords)
    (h : (∃ initial, route o c d initial = .ok r) ∨ (∃ entries, routePinned o (.ofEntries entries) c d = .ok r)) :
    (∀ g ∈ r.circuit.gates, g.op = .cnot ∨ g.op = .cz ∨ g.op = .swap →
      ∃ p q, g.qubits = [p, q] ∧ d.adjacent p q = true) ∧
    (∀ g ∈ r.circuit.gates, ∀ q ∈ g.qubits, q ∈ d.nodes) ∧
    (∃ last, d.maxNode = .ok last ∧ r.circuit.width = last + 1) ∧
    r.final.placement.length = c.width ∧ r.final.placement.Nodup ∧ ∀ p ∈ r.final.placement, p ∈ d.nodes := by
  have hr : Grounded d c r := by
    rcases h with ⟨initial, h⟩ | ⟨entries, h⟩
    · exact grounded_of_route hd h
    · exact grounded_of_routePinned hd h
  obtain ⟨bs, hbs⟩ := hr.blocks
  refine ⟨?_, ?_, hr.register, ?_, r.final.nodup, ?_⟩
  · intro g hg hi
    exact hbs.joins hr.onDevice hg hi
  · intro g hg
    exact hbs.onDevice hr.onDevice hg
  · exact hbs.size_final.trans hr.size
  · exact hbs.run.onDevice hr.onDevice

/-- Both routers on one circuit: two SWAPs that stay, or four that are undone. -/
theorem routed_on_device_allMeet : fourInARow.InWords ∧
    ∃ r r', route {} allMeet fourInARow none = .ok r ∧ r.swaps = 2 ∧
      routePinned {} (.ofEntries [(2, 4), (0, 1), (1, 2)]) allMeet fourInARow = .ok r' ∧ r'.swaps = 4 ∧
      ∀ u ∈ [r, r'], (∀ g ∈ u.circuit.gates, g.op = .cnot ∨ g.op = .cz ∨ g.op = .swap →
          ∃ p q, g.qubits = [p, q] ∧ fourInARow.adjacent p q = true) ∧
        (∀ g ∈ u.circuit.gates, ∀ q ∈ g.qubits, q ∈ fourInARow.nodes) ∧
        (∃ last, fourInARow.maxNode = .ok last ∧ u.circuit.width = last + 1) ∧
        u.final.placement.length = allMeet.width ∧ u.final.placement.Nodup ∧
        ∀ p ∈ u.final.placement, p ∈ fourInARow.nodes := by
  have hd : fourInARow.InWords := by unfold Device.InWords; decide
  obtain ⟨r, hr, hs⟩ := exists_ok_of_map (x := route {} allMeet fourInARow none) (f := (·.swaps)) (b := 2)
    (by decide +kernel)
  obtain ⟨r', hr', hs'⟩ := exists_ok_of_map
    (x := routePinned {} (.ofEntries [(2, 4), (0, 1), (1, 2)]) allMeet fourInARow) (f := (·.swaps)) (b := 4)
    (by decide +kernel)
  refine ⟨hd, r, r', hr, hs, hr', hs', ?_⟩
  intro u hu
  rcases List.mem_cons.mp hu with rfl | hu
  · exact routed_on_device hd (.inl ⟨none, hr⟩)
  · rw [List.mem_singleton.mp hu]
    exact routed_on_device hd (.inr ⟨[(2, 4), (0, 1), (1, 2)], hr'⟩)

end CircuitMapping.Routing
