/-
  CircuitMapping.Proofs.Timing.Layers — gates timed layer by layer.

  What is timed are the gates of the circuit, each once, on the levels of their nodes (`ranked_of_timeForward`), so that
  the layers in use are as many as the circuit is deep (`exists_layer_iff`). Timing comes through if the duration of
  every gate is known (`exists_timeForward`) and only then (`timesAll_of_timeForward`). None of this depends on how
  times are added.

  As integers, a gate starts, with the delay in front of it, no earlier than the layers before have been released
  (`timeNode_spec`). So does every gate of its layer (`timely_timeNode`), which leaves the layers apart from each other,
  whether the delays are in front of the gates or behind them (`laid_of_timeForward`).
-/
import CircuitMapping.Proofs.Circuit.Reversal
import CircuitMapping.Proofs.Success
import CircuitMapping.Timing.Scheduler

namespace CircuitMapping.Scheduler

open Dependencies Success

/-- How long a gate occupies its qubits, nothing where that is not known. -/
def lasts {a : Arithmetic} (s : Scheduler a) (g : Gate) : Nat := (s.durationOf g).toOption.getD 0

/-- The duration of every gate of the circuit is known. -/
def TimesAll {a : Arithmetic} (s : Scheduler a) (c : Circuit) : Prop := ∀ g ∈ c.gates, s.durationOf g = .ok (s.lasts g)

section

variable {a : Arithmetic} {s : Scheduler a} {trailing : Bool} {c : Circuit} {ts : List TimedGate}

theorem lasts_eq {g : Gate} {k : Nat} (h : s.durationOf g = .ok k) : s.lasts g = k := by
  rw [lasts, h]
  rfl

/-! ## Every gate once -/

/-- A node is timed behind those before it, at its position and in its layer. -/
theorem exists_timed_of_timeNode {layer : Nat} {base : Int} {p p' : Progress} {n : Node}
    (h : s.timeNode trailing layer base p n = .ok p') :
    (∃ k, s.durationOf n.gate = .ok k) ∧
      ∃ t : TimedGate, p'.timed = p.timed ++ [t] ∧ t.gate = n.gate ∧ t.index = n.id ∧ t.layer = layer := by
  unfold timeNode at h
  obtain ⟨k, hk, h⟩ := bind_eq_ok.mp h
  cases pure_eq_ok.mp h
  exact ⟨⟨k, hk⟩, _, rfl, rfl, rfl, rfl⟩

/-- The gates that have been timed, with their positions and layers. -/
def Progress.visited (p : Progress) : List ((Gate × Nat) × Nat) := p.timed.map fun t => ((t.gate, t.index), t.layer)

theorem visited_timeNode {layer : Nat} {base : Int} {p p' : Progress} {n : Node}
    (h : s.timeNode trailing layer base p n = .ok p') : p'.visited = p.visited ++ [((n.gate, n.id), layer)] := by
  obtain ⟨-, t, htimed, hgate, hindex, hlayer⟩ := exists_timed_of_timeNode h
  simp [Progress.visited, htimed, hgate, hindex, hlayer]

theorem visited_timeLayer {p p' : Progress} {layer : List Node × Nat}
    (h : s.timeLayer trailing p layer = .ok p') :
    p'.visited = p.visited ++ layer.1.map fun n => ((n.gate, n.id), layer.2) := by
  rw [List.map_eq_flatMap]
  exact foldlM_appends (f := s.timeNode trailing layer.2 p.ends) (fun _ _ _ => visited_timeNode) h

theorem visited_of_timeForward (h : s.timeForward trailing c = .ok ts) :
    (ts.map fun t => ((t.gate, t.index), t.layer)) = (ofCircuit c).visits.map fun v => ((v.1.gate, v.1.id), v.2) := by
  obtain ⟨p, hp, h⟩ := bind_eq_ok.mp h
  cases pure_eq_ok.mp h
  have hlayers := foldlM_appends (f := s.timeLayer trailing) (fun _ _ _ => visited_timeLayer) hp
  refine hlayers.trans ?_
  rw [visits, List.map_flatMap]
  simp [Progress.visited, Progress.start, Function.comp_def]

/-- Every gate of the circuit has been timed once, at its position and on its level. -/
theorem ranked_of_timeForward (h : s.timeForward trailing c = .ok ts) :
    (ts.map fun t => ((t.gate, t.index), t.layer)).Perm (ranked c) := by
  rw [visited_of_timeForward h, ← map_leveled]
  exact (visits_perm _).map _

theorem perm_of_timeForward (h : s.timeForward trailing c = .ok ts) :
    (ts.map fun t => (t.gate, t.index)).Perm c.gates.zipIdx := by
  have hp := (ranked_of_timeForward h).map Prod.fst
  rwa [List.map_map, map_fst_ranked] at hp

theorem level_of_timeForward (h : s.timeForward trailing c = .ok ts) {t : TimedGate} (ht : t ∈ ts) :
    c.gates[t.index]? = some t.gate ∧ (ofCircuit c).levels[t.index]? = some t.layer :=
  mem_ranked.mp ((ranked_of_timeForward h).mem_iff.mp (List.mem_map_of_mem ht))

theorem layer_lt_of_timeForward (h : s.timeForward trailing c = .ok ts) {t u : TimedGate} (ht : t ∈ ts) (hu : u ∈ ts)
    (hlt : t.index < u.index) (hm : t.gate.Meets u.gate) : t.layer < u.layer := by
  obtain ⟨htg, htl⟩ := level_of_timeForward h ht
  obtain ⟨hug, hul⟩ := level_of_timeForward h hu
  exact level_lt_of_meets htg hug htl hul hlt hm

/-! ## The layers in use -/

theorem layers_of_timeForward (h : s.timeForward trailing c = .ok ts) :
    (ts.map (·.layer)).Perm (ofCircuit c).levels := by
  have hp := (ranked_of_timeForward h).map Prod.snd
  rwa [List.map_map, map_snd_ranked] at hp

theorem exists_layer_iff (h : s.timeForward trailing c = .ok ts) (l : Nat) : (∃ t ∈ ts, t.layer = l) ↔ l < c.depth := by
  rw [depth_eq_height, ← mem_levels_ofCircuit, ← (layers_of_timeForward h).mem_iff, List.mem_map]

theorem foldl_layer (h : s.timeForward trailing c = .ok ts) :
    ts.foldl (fun m t => max m (t.layer + 1)) 0 = c.depth := by
  have hmax := foldl_max_eq_of_mem_iff (fun _ => (layers_of_timeForward h).mem_iff) (fun l => l + 1) 0
  rw [List.foldl_map] at hmax
  rw [depth_eq_height]
  exact hmax

/-! ## When timing comes through -/

theorem timesAll_of_timeForward (h : s.timeForward trailing c = .ok ts) : s.TimesAll c := by
  intro g hg
  obtain ⟨l, hl, n, hn, rfl⟩ := exists_layer_of_gate hg
  obtain ⟨p, hp, -⟩ := bind_eq_ok.mp h
  obtain ⟨u, u', hu⟩ := exists_step_of_foldlM hp hl
  obtain ⟨v, v', hv⟩ := exists_step_of_foldlM hu hn
  obtain ⟨⟨k, hk⟩, -⟩ := exists_timed_of_timeNode hv
  rwa [lasts_eq hk]

theorem exists_timeForward (h : s.TimesAll c) (trailing : Bool) : ∃ ts, s.timeForward trailing c = .ok ts := by
  have hnode : ∀ layer base p, ∀ n ∈ (ofCircuit c).nodes, ∃ p', s.timeNode trailing layer base p n = .ok p' :=
    fun _ _ _ n hn => ⟨_, bind_eq_ok.mpr ⟨_, h n.gate (gate_mem_of_mem_nodes hn), rfl⟩⟩
  have hlayers : ∃ p, (ofCircuit c).layers.zipIdx.foldlM (s.timeLayer trailing) .start = .ok p ∧ True := by
    refine exists_foldlM (P := fun _ => True) (fun p l hl _ => ?_) trivial
    refine exists_foldlM (P := fun _ => True) (fun u n hn _ => ?_) trivial
    have hmem := mem_nodes_of_mem_layers (List.fst_mem_of_mem_zipIdx hl) hn
    obtain ⟨u', hu'⟩ := hnode l.2 p.ends u n hmem
    exact ⟨u', hu', trivial⟩
  obtain ⟨p, hp, -⟩ := hlayers
  exact ⟨_, bind_eq_ok.mpr ⟨p, hp, rfl⟩⟩

end

/-! ## Times as integers -/

variable {s : Scheduler} {trailing : Bool}

/-- The delay in front of a gate, when delays are there. -/
def lead (s : Scheduler) (trailing : Bool) (g : Gate) : Nat := if trailing then 0 else s.delayOf g

/-- The end of a timed gate and of the delay behind it, when delays are there. -/
def release (s : Scheduler) (trailing : Bool) (t : TimedGate) : Int :=
  t.finish + if trailing then s.delayOf t.gate else 0

/-- A timed gate lasts as long as it has to. -/
def Lasting (s : Scheduler) (t : TimedGate) : Prop := ∃ k : Nat, s.durationOf t.gate = .ok k ∧ t.finish = t.start + k

/-! ## One gate -/

/-- A node timed in a layer that starts at `base`. -/
structure Timed (s : Scheduler) (trailing : Bool) (layer : Nat) (base : Int) (n : Node) (t : TimedGate) :
    Prop where
  gate : t.gate = n.gate
  index : t.index = n.id
  layer : t.layer = layer
  behind : base + s.lead trailing t.gate ≤ t.start
  lasting : s.Lasting t

theorem timeNode_spec {layer : Nat} {base : Int} {p p' : Progress} {n : Node}
    (h : s.timeNode trailing layer base p n = .ok p') :
    ∃ t, s.Timed trailing layer base n t ∧ p'.timed = p.timed ++ [t] ∧
      p'.ends = max p.ends (s.release trailing t) := by
  unfold timeNode at h
  obtain ⟨k, hk, h⟩ := bind_eq_ok.mp h
  cases pure_eq_ok.mp h
  have hready := le_foldl_max p.free n.gate.qubits base
  refine ⟨_, ⟨rfl, rfl, rfl, ?_, k, hk, rfl⟩, rfl, ?_⟩
  · cases trailing with
    | false =>
      simp only [lead]
      exact Int.add_le_add_right hready _
    | true => simpa [lead] using hready
  · cases trailing <;> simp [release]

/-! ## Layers stay apart -/

/-- Timed gates that are as long as they have to be, start behind their delays and keep layers apart. -/
structure Laid (s : Scheduler) (trailing : Bool) (ts : List TimedGate) : Prop where
  lasting : ∀ t ∈ ts, s.Lasting t
  lead : ∀ t ∈ ts, (s.lead trailing t.gate : Int) ≤ t.start
  apart : ∀ t ∈ ts, ∀ u ∈ ts, t.layer < u.layer → s.release trailing t + s.lead trailing u.gate ≤ u.start

/-- The layers before `layer` have been released at `base`, where that layer starts. -/
structure Timely (s : Scheduler) (trailing : Bool) (layer : Nat) (base : Int) (p : Progress) : Prop where
  laid : s.Laid trailing p.timed
  base_nonneg : 0 ≤ base
  base_le : base ≤ p.ends
  ends : ∀ t ∈ p.timed, s.release trailing t ≤ p.ends
  layers : ∀ t ∈ p.timed, t.layer ≤ layer
  before : ∀ t ∈ p.timed, t.layer < layer → s.release trailing t ≤ base

theorem laid_nil : s.Laid trailing [] where
  lasting t ht := by cases ht
  lead t ht := by cases ht
  apart t ht := by cases ht

theorem timely_start : s.Timely trailing 0 0 .start where
  laid := laid_nil
  base_nonneg := le_rfl
  base_le := le_rfl
  ends t ht := by cases ht
  layers t ht := by cases ht
  before t ht := by cases ht

theorem mem_of_concat {ts us : List TimedGate} {t u : TimedGate} (h : us = ts ++ [t]) (hu : u ∈ us) :
    u ∈ ts ∨ u = t := by
  rw [h] at hu
  simpa using hu

theorem Timely.laid_concat {layer : Nat} {base : Int} {p p' : Progress} {n : Node} {t : TimedGate}
    (hp : s.Timely trailing layer base p) (ht : s.Timed trailing layer base n t) (h : p'.timed = p.timed ++ [t]) :
    s.Laid trailing p'.timed where
  lasting u hu := by
    rcases mem_of_concat h hu with hu | rfl
    · exact hp.laid.lasting u hu
    · exact ht.lasting
  lead u hu := by
    rcases mem_of_concat h hu with hu | rfl
    · exact hp.laid.lead u hu
    · have := ht.behind
      have := hp.base_nonneg
      omega
  apart u hu v hv hlt := by
    have hlayer := ht.layer
    rcases mem_of_concat h hu with hu | rfl <;> rcases mem_of_concat h hv with hv | rfl
    · exact hp.laid.apart u hu v hv hlt
    · have := hp.before u hu (hlayer ▸ hlt)
      have := ht.behind
      omega
    · have := hp.layers v hv
      omega
    · omega

theorem timely_timeNode {layer : Nat} {base : Int} {p p' : Progress} {n : Node}
    (hp : s.Timely trailing layer base p) (h : s.timeNode trailing layer base p n = .ok p') :
    s.Timely trailing layer base p' := by
  obtain ⟨t, ht, htimed, hends⟩ := timeNode_spec h
  refine ⟨hp.laid_concat ht htimed, hp.base_nonneg, ?_, ?_, ?_, ?_⟩
  · rw [hends]
    exact hp.base_le.trans (le_max_left _ _)
  · intro u hu
    rw [hends]
    rcases mem_of_concat htimed hu with hu | rfl
    · exact (hp.ends u hu).trans (le_max_left _ _)
    · exact le_max_right _ _
  · intro u hu
    rcases mem_of_concat htimed hu with hu | rfl
    · exact hp.layers u hu
    · exact ht.layer.le
  · intro u hu hlt
    rcases mem_of_concat htimed hu with hu | rfl
    · exact hp.before u hu hlt
    · have := ht.layer
      omega

/-- A layer that has been timed is one of those before the next. -/
theorem Timely.next {layer : Nat} {base : Int} {p : Progress} (h : s.Timely trailing layer base p) :
    s.Timely trailing (layer + 1) p.ends p where
  laid := h.laid
  base_nonneg := h.base_nonneg.trans h.base_le
  base_le := le_rfl
  ends := h.ends
  layers t ht := (h.layers t ht).trans (Nat.le_succ layer)
  before t ht _ := h.ends t ht

theorem timely_timeLayer {p p' : Progress} {ns : List Node} {k : Nat}
    (hp : s.Timely trailing k p.ends p) (h : s.timeLayer trailing p (ns, k) = .ok p') :
    s.Timely trailing (k + 1) p'.ends p' :=
  (foldlM_keeps (fun _ _ _ _ => timely_timeNode) hp h).next

theorem laid_of_foldlM {ls : List (List Node)} {k : Nat} {p p' : Progress}
    (hp : s.Timely trailing k p.ends p) (h : (ls.zipIdx k).foldlM (s.timeLayer trailing) p = .ok p') :
    s.Laid trailing p'.timed :=
  (foldlM_zipIdx_keeps (P := fun k p => s.Timely trailing k p.ends p) (fun _ _ _ _ => timely_timeLayer) hp h).laid

theorem laid_of_timeForward {c : Circuit} {ts : List TimedGate} (h : s.timeForward trailing c = .ok ts) :
    s.Laid trailing ts := by
  obtain ⟨p, hp, h⟩ := bind_eq_ok.mp h
  cases pure_eq_ok.mp h
  exact laid_of_foldlM timely_start hp

end CircuitMapping.Scheduler
