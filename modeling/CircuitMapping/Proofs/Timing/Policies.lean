/-
  CircuitMapping.Proofs.Timing.Policies — the same gate under both policies.

  As soon as possible a gate starts, behind its delay, when the layers in front of it have ended (`start_of_asap`), and
  as late as possible it ends when only the layers behind it are left (`finish_of_alap`). The layers of the two
  schedules are not the same ones. A long gate that is free to be anywhere is in the first layer of one and in the last
  layer of the other, and a gate between the two starts later as soon as possible than as late as possible
  (`late_policy_starts_gate_earlier`).

  So which start is earlier is a matter of the layers in front of the gate in one schedule and of those behind it in the
  other (`start_le_start_iff`). As late as possible is no earlier where none of its layers behind the gate takes longer
  than the other's of that number, where none of the other's layers in front of the gate takes longer than its own of
  that number, and in circuits of which all gates take the same time. All this is about times as integers, and holds for
  those in words where the work of the circuit is a word (`late_start_iff_layers_fit`).
-/
import CircuitMapping.Proofs.Timing.Orders
import CircuitMapping.Proofs.Timing.Sequence

namespace CircuitMapping.Scheduler

open Dependencies Success

variable {s : Scheduler} {trailing : Bool} {c : Circuit} {ts us : List TimedGate}

/-! ## The time of layers -/

/-- The time of the longest gate of a layer, delays included. -/
def layerTime {a : Arithmetic} (s : Scheduler a) (ts : List TimedGate) (l : Nat) : Nat :=
  (ts.filter fun t => t.layer == l).foldl (fun m t => max m (s.span t.gate)) 0

/-- The time of `n` layers one after the other, the first of them layer `a`. -/
def layersTime (time : Nat → Nat) : Nat → Nat → Nat
  | _, 0 => 0
  | a, n + 1 => time a + layersTime time (a + 1) n

theorem layersTime_add (time : Nat → Nat) (a m n : Nat) :
    layersTime time a (m + n) = layersTime time a m + layersTime time (a + m) n := by
  induction m generalizing a with
  | zero => simp [layersTime]
  | succ m ih =>
    rw [Nat.succ_add, layersTime, layersTime, ih, Nat.add_assoc, Nat.add_assoc, Nat.add_comm 1 m]

theorem layersTime_le {time time' : Nat → Nat} {a n : Nat} (h : ∀ l, a ≤ l → l < a + n → time l ≤ time' l) :
    layersTime time a n ≤ layersTime time' a n := by
  induction n generalizing a with
  | zero => exact le_rfl
  | succ n ih =>
    have hfirst := h a le_rfl (by omega)
    have hrest := ih (a := a + 1) fun l hl hlt => h l (by omega) (by omega)
    exact Nat.add_le_add hfirst hrest

/-- Among `d` layers, some in front of a layer and some behind it. -/
theorem layersTime_around (time : Nat → Nat) {l k m d : Nat} (hlk : l ≤ k) (hkm : k ≤ m) (hm : m < d) :
    layersTime time 0 l + time k + layersTime time (m + 1) (d - 1 - m) ≤ layersTime time 0 d := by
  obtain ⟨a, rfl⟩ := Nat.exists_eq_add_of_le hlk
  obtain ⟨b, rfl⟩ := Nat.exists_eq_add_of_le hkm
  obtain ⟨n, rfl⟩ := Nat.exists_eq_add_of_le hm
  have hfront := layersTime_add time 0 l (a + (1 + (b + n)))
  have hnext := layersTime_add time l a (1 + (b + n))
  have hlayer := layersTime_add time (l + a) 1 (b + n)
  have hbehind := layersTime_add time (l + a + 1) b n
  rw [show l + (a + (1 + (b + n))) = (l + a + b).succ + n by omega, Nat.zero_add] at hfront
  rw [show l + a + 1 + b = l + a + b + 1 by omega] at hbehind
  rw [show (l + a + b).succ + n - 1 - (l + a + b) = n by omega]
  simp only [layersTime] at hlayer
  omega

/-- Layers counted from the other end take the same time. -/
theorem layersTime_mirror {time time' : Nat → Nat} {d : Nat} (h : ∀ l < d, time' l = time (d - 1 - l)) {a n : Nat}
    (hle : a + n ≤ d) : layersTime time' a n = layersTime time (d - a - n) n := by
  induction n generalizing a with
  | zero => rfl
  | succ n ih =>
    have hlast := layersTime_add time (d - a - (n + 1)) n 1
    have hn : d - a - (n + 1) + n = d - 1 - a := by omega
    have hnext : d - (a + 1) - n = d - a - (n + 1) := by omega
    rw [hlast, hn, layersTime, h a (by omega), ih (by omega), hnext]
    simp only [layersTime]
    omega

theorem layersSpan_eq {time : Nat → Nat} {a : Nat} {ls : List (List Node)}
    (h : ls.map s.layerSpan = (List.range' a ls.length).map time) : s.layersSpan ls = layersTime time a ls.length := by
  induction ls generalizing a with
  | nil => rfl
  | cons ns ls ih =>
    rw [List.length_cons, List.range'_succ, List.map_cons, List.map_cons] at h
    injection h with hns hls
    rw [layersSpan, List.length_cons, layersTime, hns, ih hls]

/-! ## Layers of timed gates -/

theorem layerTime_of_perm (h : us.Perm ts) : s.layerTime us = s.layerTime ts :=
  funext fun _ => foldl_max_eq_of_mem_iff (fun _ => (h.filter _).mem_iff) ..

theorem span_le_layerTime {t : TimedGate} (h : t ∈ ts) : s.span t.gate ≤ s.layerTime ts t.layer :=
  le_foldl_max_of_mem (fun t : TimedGate => s.span t.gate) 0 (List.mem_filter.mpr ⟨h, by simp⟩)

theorem layerTime_of_timeForward (h : s.timeForward trailing c = .ok ts) (l : Nat) :
    s.layerTime ts l = (gatesOn c l).foldl (fun m g => max m (s.span g)) 0 := by
  have hp := ((ranked_of_timeForward h).filter fun p => p.2 == l).map fun p => p.1.1
  rw [List.filter_map, List.map_map] at hp
  have hmax := foldl_max_eq_of_mem_iff (fun _ => hp.mem_iff) s.span 0
  rw [List.foldl_map] at hmax
  exact hmax

theorem map_layerSpan (s : Scheduler) (c : Circuit) : (ofCircuit c).layers.map s.layerSpan =
    (List.range (ofCircuit c).height).map fun l => (gatesOn c l).foldl (fun m g => max m (s.span g)) 0 := by
  have hgates := congrArg (List.map fun gs : List Gate => gs.foldl (fun m g => max m (s.span g)) 0) (map_gate_layers c)
  rw [List.map_map, List.map_map] at hgates
  refine .trans (List.map_congr_left ?_) hgates
  intro ns _
  show s.layerSpan ns = (ns.map (·.gate)).foldl (fun m g => max m (s.span g)) 0
  rw [List.foldl_map]
  rfl

/-- The layers in front of a level. -/
theorem below_eq_layersTime (h : s.timeForward trailing c = .ok ts) {l : Nat} (hl : l ≤ c.depth) :
    s.below c l = layersTime (s.layerTime ts) 0 l := by
  rw [depth_eq_height] at hl
  have hspans : ((ofCircuit c).layers.take l).map s.layerSpan = (List.range' 0 l).map (s.layerTime ts) := by
    rw [List.map_take, map_layerSpan, ← List.map_take, List.take_range, Nat.min_eq_left hl, List.range_eq_range']
    exact List.map_congr_left fun l _ => (layerTime_of_timeForward h l).symm
  have hlen : ((ofCircuit c).layers.take l).length = l := by
    simpa using congrArg List.length hspans
  rw [below, layersSpan_eq (by rwa [hlen]), hlen]

theorem below_depth (s : Scheduler) (c : Circuit) : s.below c c.depth = s.layersSpan (ofCircuit c).layers := by
  have hlen : (ofCircuit c).layers.length = c.depth := by
    rw [depth_eq_height, layers, List.length_map, List.length_range]
  rw [below, ← hlen, List.take_length]

/-- Reflected layers are counted from the other end. -/
theorem layerTime_reflect (axis : Int) (n : Nat) {d : Nat} (h : ∀ t ∈ ts, t.layer < d) {l : Nat} (hl : l < d) :
    s.layerTime (ts.map (reflect axis n d)) l = s.layerTime ts (d - 1 - l) := by
  unfold layerTime
  rw [List.filter_map, List.foldl_map]
  have hfilter : ts.filter ((fun t => t.layer == l) ∘ reflect axis n d) = ts.filter fun t => t.layer == d - 1 - l := by
    refine List.filter_congr fun t ht => ?_
    have := h t ht
    rw [Bool.eq_iff_iff, Function.comp_apply, beq_iff_eq, beq_iff_eq]
    simp only [reflect]
    omega
  rw [hfilter]
  rfl

/-! ## Starts -/

/-- Every gate starts behind the layers in front of it, and its delay where that is in front. -/
theorem start_of_timeForward (h : s.TimesAll c) (hts : s.timeForward trailing c = .ok ts) {t : TimedGate}
    (ht : t ∈ ts) :
    t.start = layersTime (s.layerTime ts) 0 t.layer + s.lead trailing t.gate ∧ t.finish = t.start + s.lasts t.gate := by
  have hlt : t.layer < c.depth := (exists_layer_iff hts t.layer).mp ⟨t, ht, rfl⟩
  rw [← below_eq_layersTime hts hlt.le]
  exact times_of_timeForward h hts ht

theorem timesAll_of_under {p : Timing.Policy} {r : Schedule} (h : (s.under p).schedule c = .ok r) : s.TimesAll c :=
  timesAll_of_schedule (s := s.under p) h

/-- As soon as possible, a gate starts when the layers in front of it and its delay are over. -/
theorem start_of_asap {asap : Schedule} (h : (s.under .asSoonAsPossible).schedule c = .ok asap) {t : TimedGate}
    (ht : t ∈ asap.timed) : t.start = layersTime (s.layerTime asap.timed) 0 t.layer + s.delayOf t.gate := by
  have htimes := timesAll_of_under h
  obtain ⟨ts, hts, rfl⟩ := forward_of_schedule h
  have hp := timed_perm c.width ts
  rw [layerTime_of_perm hp]
  exact (start_of_timeForward htimes hts (hp.mem_iff.mp ht)).1

/-- The gates of the reversed circuit are reflected at the makespan, the later of the two ends. -/
theorem reflected_of_alap {alap : Schedule} (h : (s.under .asLateAsPossible).schedule c = .ok alap) :
    ∃ back, s.timeForward true c.reversed = .ok back ∧
      alap.timed.Perm (back.map (reflect alap.makespan c.size c.depth)) ∧
      alap.makespan = (max (s.below c c.depth) (s.below c.reversed c.depth) : Nat) := by
  have htimes := timesAll_of_under h
  obtain ⟨us, hus, rfl⟩ := backward_of_schedule h
  obtain ⟨r, hr, hm⟩ := exists_schedule_alap htimes
  rw [h] at hr
  cases hr
  obtain ⟨forward, back, hf, hb, rfl⟩ := timeBackward_eq_ok hus
  rw [timeForward_eq htimes] at hf
  cases hf
  have hback := hb
  rw [timeForward_eq htimes.reversed] at hb
  cases hb
  refine ⟨_, hback, ?_, ?_⟩
  · rw [hm, ← axis_eq]
    exact timed_perm ..
  · rw [hm, below_depth, ← c.depth_reversed, below_depth]

theorem layer_lt_of_backward (h : s.timeForward true c.reversed = .ok ts) : ∀ t ∈ ts, t.layer < c.depth := by
  intro t ht
  rw [← c.depth_reversed]
  exact (exists_layer_iff h t.layer).mp ⟨t, ht, rfl⟩

/-- As late as possible, only the layers behind a gate are left when it ends. -/
theorem finish_of_alap {alap : Schedule} (h : (s.under .asLateAsPossible).schedule c = .ok alap) {u : TimedGate}
    (hu : u ∈ alap.timed) : u.finish = u.start + s.lasts u.gate ∧
      u.finish + layersTime (s.layerTime alap.timed) (u.layer + 1) (c.depth - 1 - u.layer) = alap.makespan := by
  have htimes := timesAll_of_under h
  obtain ⟨back, hb, hp, -⟩ := reflected_of_alap h
  have hlt := layer_lt_of_backward hb
  rw [layerTime_of_perm hp]
  obtain ⟨v, hv, rfl⟩ := List.mem_map.mp (hp.mem_iff.mp hu)
  have hvlt := hlt v hv
  obtain ⟨hstart, hfinish⟩ := start_of_timeForward htimes.reversed hb hv
  have hbehind := layersTime_mirror (fun l hl => layerTime_reflect (s := s) alap.makespan c.size hlt hl)
    (a := c.depth - 1 - v.layer + 1) (n := v.layer) (by omega)
  rw [show c.depth - (c.depth - 1 - v.layer + 1) - v.layer = 0 by omega] at hbehind
  simp only [reflect, lead, if_true] at hstart ⊢
  rw [show c.depth - 1 - (c.depth - 1 - v.layer) = v.layer by omega, hbehind]
  constructor
  · omega
  · omega

theorem getElem?_gates_of_schedule {r : Schedule} (h : s.schedule c = .ok r) {t : TimedGate} (ht : t ∈ r.timed) :
    c.gates[t.index]? = some t.gate :=
  List.mk_mem_zipIdx_iff_getElem?.mp ((perm_of_schedule h).mem_iff.mp (List.mem_map_of_mem ht))

/-! ## Which start is earlier -/

section

variable {asap alap : Schedule} (hasap : (s.under .asSoonAsPossible).schedule c = .ok asap)
  (halap : (s.under .asLateAsPossible).schedule c = .ok alap) {t u : TimedGate}

include hasap halap

theorem layersTime_le_makespan : layersTime (s.layerTime asap.timed) 0 c.depth ≤ alap.makespan ∧
    layersTime (s.layerTime alap.timed) 0 c.depth ≤ alap.makespan := by
  obtain ⟨ts, hts, rfl⟩ := forward_of_schedule hasap
  obtain ⟨back, hb, hp, hm⟩ := reflected_of_alap halap
  have hmirror := layersTime_mirror
    (fun l hl => layerTime_reflect (s := s) alap.makespan c.size (layer_lt_of_backward hb) hl)
    (a := 0) (n := c.depth) (by omega)
  rw [show c.depth - 0 - c.depth = 0 by omega] at hmirror
  rw [layerTime_of_perm hp, hmirror, ← below_eq_layersTime hb c.depth_reversed.ge, layerTime_of_perm (timed_perm _ ts),
    ← below_eq_layersTime hts le_rfl, hm]
  omega

theorem gate_eq_of_index (ht : t ∈ asap.timed) (hu : u ∈ alap.timed) (hindex : t.index = u.index) :
    t.gate = u.gate := by
  have htg := getElem?_gates_of_schedule hasap ht
  rw [hindex, getElem?_gates_of_schedule halap hu] at htg
  exact (Option.some.inj htg).symm

/-- The layers in front of a gate as soon as possible, the gate itself and the layers behind it as late as possible. -/
theorem start_le_start_iff (ht : t ∈ asap.timed) (hu : u ∈ alap.timed) (hindex : t.index = u.index) :
    t.start ≤ u.start ↔ layersTime (s.layerTime asap.timed) 0 t.layer + s.span t.gate +
      layersTime (s.layerTime alap.timed) (u.layer + 1) (c.depth - 1 - u.layer) ≤ alap.makespan := by
  have hstart := start_of_asap hasap ht
  obtain ⟨hfinish, hend⟩ := finish_of_alap halap hu
  have hgate := gate_eq_of_index hasap halap ht hu hindex
  rw [hstart, hgate, span]
  omega

/-- Layers behind a gate that take no longer than the others of their numbers leave room for what is in front of it. -/
theorem start_le_start_of_behind (ht : t ∈ asap.timed) (hu : u ∈ alap.timed) (hindex : t.index = u.index)
    (h : ∀ l, u.layer < l → l < c.depth → s.layerTime alap.timed l ≤ s.layerTime asap.timed l) :
    t.start ≤ u.start := by
  rw [start_le_start_iff hasap halap ht hu hindex]
  have hlt := (inLayers_of_schedule halap).layer_lt hu
  have hbehind := layersTime_le (a := u.layer + 1) (n := c.depth - 1 - u.layer) fun l hl _ => h l hl (by omega)
  have hspan := span_le_layerTime (s := s) ht
  have hfit := layersTime_around (s.layerTime asap.timed) le_rfl (layer_le_layer hasap halap ht hu hindex) hlt
  have htotal := (layersTime_le_makespan hasap halap).1
  omega

/-- Layers in front of a gate that take no longer than the others of their numbers leave room for what is behind it. -/
theorem start_le_start_of_front (ht : t ∈ asap.timed) (hu : u ∈ alap.timed) (hindex : t.index = u.index)
    (h : ∀ l, l < t.layer → s.layerTime asap.timed l ≤ s.layerTime alap.timed l) : t.start ≤ u.start := by
  rw [start_le_start_iff hasap halap ht hu hindex, gate_eq_of_index hasap halap ht hu hindex]
  have hlt := (inLayers_of_schedule halap).layer_lt hu
  have hfront := layersTime_le (a := 0) (n := t.layer) fun l _ hl => h l (by omega)
  have hspan := span_le_layerTime (s := s) hu
  have hfit := layersTime_around (s.layerTime alap.timed) (layer_le_layer hasap halap ht hu hindex) le_rfl hlt
  have htotal := (layersTime_le_makespan hasap halap).2
  omega

/-- Where all gates take the same time, so do all layers. -/
theorem layerTime_le_layerTime (h : ∀ g ∈ c.gates, ∀ g' ∈ c.gates, s.span g = s.span g') (l : Nat) :
    s.layerTime alap.timed l ≤ s.layerTime asap.timed l := by
  rcases foldl_max_eq_or_mem (fun u : TimedGate => s.span u.gate) (alap.timed.filter fun u => u.layer == l) 0
    with hz | ⟨u, hu, he⟩
  · rw [layerTime, hz]
    exact Nat.zero_le _
  · obtain ⟨hmem, hlayer⟩ := List.mem_filter.mp hu
    -- the layer is in use, so a gate of the circuit is there as soon as possible, too
    have hlt := (inLayers_of_schedule halap).layer_lt hmem
    rw [beq_iff_eq.mp hlayer] at hlt
    obtain ⟨t, ht, rfl⟩ := ((inLayers_of_schedule hasap).used l).mpr hlt
    have hug := List.mem_of_getElem? (getElem?_gates_of_schedule halap hmem)
    have htg := List.mem_of_getElem? (getElem?_gates_of_schedule hasap ht)
    rw [layerTime, he, h _ hug _ htg]
    exact span_le_layerTime ht

end

/-- Where the work of the circuit is a word, a gate starts no later as soon as possible than as late as possible exactly
    if the layers in front of it in the one schedule, its own time and the layers behind it in the other fit into the
    makespan of the latter. So it is where no layer behind it as late as possible takes longer than the layer of the
    same number as soon as possible, where no layer in front of it as soon as possible takes longer than the layer of
    the same number as late as possible, and where all gates of the circuit take the same time, delays included. -/
theorem late_start_iff_layers_fit {s : Scheduler .words} {c : Circuit} {r : Schedule} (h : s.schedule c = .ok r) :
    ∃ asap alap, (s.under .asSoonAsPossible).schedule c = .ok asap ∧
      (s.under .asLateAsPossible).schedule c = .ok alap ∧
      (s.Fits c → ∀ t ∈ asap.timed, ∀ u ∈ alap.timed, t.index = u.index →
        (t.start ≤ u.start ↔ layersTime (s.layerTime asap.timed) 0 t.layer + s.span t.gate +
          layersTime (s.layerTime alap.timed) (u.layer + 1) (c.depth - 1 - u.layer) ≤ alap.makespan) ∧
        ((∀ l, u.layer < l → l < c.depth → s.layerTime alap.timed l ≤ s.layerTime asap.timed l) →
          t.start ≤ u.start) ∧
        ((∀ l, l < t.layer → s.layerTime asap.timed l ≤ s.layerTime alap.timed l) → t.start ≤ u.start) ∧
        ((∀ g ∈ c.gates, ∀ g' ∈ c.gates, s.span g = s.span g') → t.start ≤ u.start)) := by
  obtain ⟨asap, alap, hasap, halap⟩ := exists_both (timesAll_of_schedule h)
  refine ⟨asap, alap, hasap, halap, fun hfit t ht u hu hindex => ?_⟩
  -- both schedules are the ones with times as integers
  have hearly : ((s.holding .exact).under .asSoonAsPossible).schedule c = .ok asap :=
    (schedule_eq_exact (hfit.under _)).symm.trans hasap
  have hlate : ((s.holding .exact).under .asLateAsPossible).schedule c = .ok alap :=
    (schedule_eq_exact (hfit.under _)).symm.trans halap
  refine ⟨start_le_start_iff hearly hlate ht hu hindex, start_le_start_of_behind hearly hlate ht hu hindex,
    start_le_start_of_front hearly hlate ht hu hindex, fun hspan => ?_⟩
  exact start_le_start_of_behind hearly hlate ht hu hindex fun l _ _ => layerTime_le_layerTime hearly hlate hspan l

/-- Three gates one after the other, and a long measurement beside them. -/
def besideChain : Circuit where
  width := 9
  entries := Circuit.number [⟨.cnot, [8, 7], [], by decide⟩, ⟨.h, [8], [], by decide⟩, ⟨.cnot, [7, 8], [], by decide⟩,
    ⟨.measure, [5], [], by decide⟩]
  width_pos := by decide
  in_range := by decide

/-- As soon as possible the second gate of the chain waits for the measurement in the first layer, and as late as
    possible the measurement is in the last layer, which comes after it. -/
theorem late_policy_starts_gate_earlier : ∃ asap alap,
    (lateInWords.under .asSoonAsPossible).schedule besideChain = .ok asap ∧
    (lateInWords.under .asLateAsPossible).schedule besideChain = .ok alap ∧
    (asap.timed.map fun t => (t.index, t.layer, t.start, t.finish)) =
      [(0, 0, 2, 154), (3, 0, 5, 1005), (1, 1, 1007, 1043), (2, 2, 1045, 1197)] ∧
    (alap.timed.map fun t => (t.index, t.layer, t.start, t.finish)) =
      [(0, 0, 2, 154), (1, 1, 156, 192), (3, 2, 197, 1197), (2, 2, 1045, 1197)] ∧
    ¬ ∀ t ∈ asap.timed, ∀ u ∈ alap.timed, t.index = u.index → t.start ≤ u.start := by
  obtain ⟨asap, hasap, htimes⟩ := exists_ok_of_map
    (x := (lateInWords.under .asSoonAsPossible).schedule besideChain)
    (f := fun r => r.timed.map fun t => (t.index, t.layer, t.start, t.finish))
    (b := [(0, 0, 2, 154), (3, 0, 5, 1005), (1, 1, 1007, 1043), (2, 2, 1045, 1197)])
    (by decide +kernel)
  obtain ⟨alap, halap, htimes'⟩ := exists_ok_of_map
    (x := (lateInWords.under .asLateAsPossible).schedule besideChain)
    (f := fun r => r.timed.map fun t => (t.index, t.layer, t.start, t.finish))
    (b := [(0, 0, 2, 154), (1, 1, 156, 192), (3, 2, 197, 1197), (2, 2, 1045, 1197)])
    (by decide +kernel)
  refine ⟨asap, alap, hasap, halap, htimes, htimes', fun hle => ?_⟩
  -- the second gate of the chain in both schedules
  have hearly : (1, 1, 1007, 1043) ∈ asap.timed.map fun t => (t.index, t.layer, t.start, t.finish) := by
    rw [htimes]
    decide
  have hlate : (1, 1, 156, 192) ∈ alap.timed.map fun t => (t.index, t.layer, t.start, t.finish) := by
    rw [htimes']
    decide
  obtain ⟨t, ht, hteq⟩ := List.mem_map.mp hearly
  obtain ⟨u, hu, hueq⟩ := List.mem_map.mp hlate
  simp only [Prod.mk.injEq] at hteq hueq
  have := hle t ht u hu (by omega)
  omega

/-- For the second gate of the chain the layers do not fit, and for the others they do. -/
theorem late_start_iff_layers_fit_besideChain : lateInWords.Fits besideChain ∧
    ∃ r, lateInWords.schedule besideChain = .ok r ∧
    ∃ asap alap, (lateInWords.under .asSoonAsPossible).schedule besideChain = .ok asap ∧
      (lateInWords.under .asLateAsPossible).schedule besideChain = .ok alap ∧
      ∀ t ∈ asap.timed, ∀ u ∈ alap.timed, t.index = u.index →
        (t.start ≤ u.start ↔ layersTime (lateInWords.layerTime asap.timed) 0 t.layer + lateInWords.span t.gate +
          layersTime (lateInWords.layerTime alap.timed) (u.layer + 1) (besideChain.depth - 1 - u.layer)
            ≤ alap.makespan) ∧
        ((∀ l, u.layer < l → l < besideChain.depth →
            lateInWords.layerTime alap.timed l ≤ lateInWords.layerTime asap.timed l) → t.start ≤ u.start) ∧
        ((∀ l, l < t.layer → lateInWords.layerTime asap.timed l ≤ lateInWords.layerTime alap.timed l) →
          t.start ≤ u.start) ∧
        ((∀ g ∈ besideChain.gates, ∀ g' ∈ besideChain.gates, lateInWords.span g = lateInWords.span g') →
          t.start ≤ u.start) := by
  have hfit : lateInWords.Fits besideChain := by decide +kernel
  obtain ⟨r, hr, -⟩ := exists_ok_of_map (x := lateInWords.schedule besideChain) (f := (·.makespan)) (b := 1197)
    (by decide +kernel)
  obtain ⟨asap, alap, hasap, halap, hstarts⟩ := late_start_iff_layers_fit hr
  exact ⟨hfit, r, hr, asap, alap, hasap, halap, hstarts hfit⟩

end CircuitMapping.Scheduler
