import Sdg.Proofs.Teardown.Rounds

/-!
# The outcome of a teardown

What is left of a registry when some graphs are gone, said without any order of work, and that a
teardown leaves just that.

Main results:

* `Work.destroy_spec` — a teardown takes the least set of graphs that falls, and ends without fault;
* `Work.release_spec` — the same when the last reference is given back.
-/

namespace Sdg

open scoped Classical

/-- What is left of a node when the nodes in `N` and the graphs in `D` are gone. -/
noncomputable def Node.without (x : Node) (N : Set NodeId) (D : Set GraphId) : Node := { x with
  controls := x.controls.filter fun k => k ∉ N
  controlledBy := x.controlledBy.filter fun k => k ∉ N
  feeds := x.feeds.filter fun k => k ∉ N
  fedBy := x.fedBy.filter fun k => k ∉ N
  callees := x.callees.filter fun h => h ∉ D }

/-- What is left of a graph when the nodes in `N` are gone, which held `count` references to it. -/
noncomputable def Graph.without (y : Graph) (N : Set NodeId) (count : Nat) : Graph := { y with
  callers := y.callers.filter fun c => c ∉ N
  refcount := y.refcount - count }

namespace Registry

/-- `t` is what is left of `r` when the graphs in `D` are gone with all their nodes. -/
structure Remains (r : Registry) (D : Set GraphId) (t : Registry) : Prop where
  live : ∀ h ∈ D, ∃ y, r.graph? h = some y
  gone : ∀ h ∈ D, t.graph? h = none
  /-- A graph that is left loses the calls of the graphs that are gone, and a reference for each. -/
  graph : ∀ h ∉ D, t.graph? h = (r.graph? h).map (·.without (r.nodesOf D) (r.callsFrom D h).ncard)
  counted : ∀ h ∉ D, ∀ y, r.graph? h = some y → (r.callsFrom D h).ncard ≤ y.refcount
  freed : ∀ n ∈ r.nodesOf D, t.node? n = none
  /-- A node that is left loses its edges to nodes that are gone, and its links to graphs. -/
  node : ∀ n ∉ r.nodesOf D, t.node? n = (r.node? n).map (·.without (r.nodesOf D) D)
  /-- Of the entries of functions those go that lead to graphs that are gone. -/
  lookup? : ∀ f g, t.lookup? f = some g ↔ r.lookup? f = some g ∧ g ∉ D
  nextNode : t.nextNode = r.nextNode
  nextGraph : t.nextGraph = r.nextGraph
  pool : t.pool = r.pool
  gathered : t.gathered = r.gathered

end Registry

open Registry

/-! ## From progress to outcome -/

namespace Progress

variable {m : Module} {r t : Registry} {q : Progress} {g h : GraphId} {n : NodeId} {x : Node}
  {y : Graph}

/-- When all is done, the nodes that are freed are those of the graphs that were opened. -/
theorem mem_freed_iff (ht : r.Tearable m g) (hs : q.Sound r g) (hd : ∀ k ∈ q.opened, q.Done r k) :
    n ∈ q.freed ↔ n ∈ r.nodesOf q.opened := by
  rw [ht.mem_nodesOf_iff]
  constructor
  · intro hn
    exact hs.owned n hn
  · intro h
    obtain ⟨k, hk, ho⟩ := h
    exact (hd k hk).freed n ho

/-- A standing node has given back no link. -/
theorem node_eq (ht : r.Tearable m g) (hs : q.Sound r g) (hd : ∀ k ∈ q.opened, q.Done r k)
    (hn : n ∉ r.nodesOf q.opened) (x : Node) :
    q.node n x = x.without (r.nodesOf q.opened) q.opened := by
  -- a link that was given back lies in an opened graph, and the node does not
  have hcut : ∀ h, (n, h) ∉ q.cut := fun h hc =>
    hn ((ht.mem_nodesOf_iff _).2 (hs.links n h hc).2)
  simp only [node, Node.without, mem_freed_iff ht hs hd, hcut, or_false]

/-- A standing graph has lost the calls of the graphs that are gone. -/
theorem graph_eq (ht : r.Tearable m g) (hs : q.Sound r g) (hd : ∀ k ∈ q.opened, q.Done r k)
    (hh : h ∉ q.opened) (hy : r.graph? h = some y) :
    q.graph h y = y.without (r.nodesOf q.opened) (r.callsFrom q.opened h).ncard := by
  have hcount : (r.callsFrom q.opened h).ncard = (q.lost h y).size := by
    rw [ncard_callsFrom ht.mirrored hy, lost_eq ht.mirrored hs hd hh hy]
  have hcallers : y.callers.filter (fun c => decide ((c, h) ∉ q.cut)) =
      y.callers.filter fun c => decide (c ∉ r.nodesOf q.opened) := by
    refine OrderedSet.filter_congr fun c hc => ?_
    have hcalls : r.Calls c h := (ht.mirrored.calls c h).2 ⟨y, hy, hc⟩
    simp only [mem_cut_iff hs hd hh hcalls, ht.mem_nodesOf_iff]
  rw [graph, hcallers, Graph.without, hcount]

/-- No more references are given back than there are. -/
theorem size_lost_le (hh : q.Held r) (hopen : h ∉ q.opened) (hy : r.graph? h = some y) :
    (q.lost h y).size ≤ y.refcount := by
  by_cases hc : ∃ c, c ∈ y.callers
  · obtain ⟨c, hc⟩ := hc
    exact (hh h y c hopen hy hc).le
  · have hnone : (q.lost h y).size = 0 := by
      rw [OrderedSet.size_eq_zero]
      intro c hcl
      exact hc ⟨c, (OrderedSet.mem_filter.1 hcl).1⟩
    omega

/-- A completed teardown leaves what is left without the graphs that it opened. -/
theorem Stage.remains (ht : r.Tearable m g) (hst : q.Stage r g t)
    (hd : ∀ k ∈ q.opened, q.Done r k) : r.Remains q.opened t where
  live := hst.sound.live
  gone h hh := hst.here.gone h (hd h hh).gone
  graph h hh := by
    rw [hst.here.graph h hh]
    cases hy : r.graph? h with
    | none => rfl
    | some y => rw [Option.map_some, Option.map_some, graph_eq ht hst.sound hd hh hy]
  counted h hh y hy := by
    rw [ncard_callsFrom ht.mirrored hy, ← lost_eq ht.mirrored hst.sound hd hh hy]
    exact size_lost_le hst.held hh hy
  freed n hn := by
    rw [hst.here.node n, if_pos ((mem_freed_iff ht hst.sound hd).2 hn)]
  node n hn := by
    have hnf : n ∉ q.freed := fun hf => hn ((mem_freed_iff ht hst.sound hd).1 hf)
    rw [hst.here.node n, if_neg hnf]
    congr 1
    funext x
    exact node_eq ht hst.sound hd hn x
  lookup? f k := by
    rw [hst.here.found]
    -- a graph that was opened is gone
    exact and_congr_right fun _ => not_congr ⟨fun hk => hst.sound.gone hk, fun hk => (hd k hk).gone⟩
  nextNode := hst.here.nextNode
  nextGraph := hst.here.nextGraph
  pool := hst.here.pool
  gathered := hst.here.gathered

end Progress

/-! ## The last reference -/

namespace Registry

variable {m : Module} {r t : Registry} {g h : GraphId} {y : Graph} {S D : Set GraphId}
  {f : Graph → Graph}

/-- Calls are read off the nodes alone. -/
theorem callsFrom_reviseGraph : (r.reviseGraph g f).callsFrom = r.callsFrom := by
  have hnode : (r.reviseGraph g f).node? = r.node? := funext fun n => by simp
  funext S h
  simp only [callsFrom, Calls, OwnedBy, hnode]

/-- What falls with a graph does not depend on the references to the graph itself. -/
theorem falls_reviseGraph : (r.reviseGraph g f).Falls g S ↔ r.Falls g S := by
  -- the graph that is revised is the start, so it need not fall by a count
  constructor <;> intro hS <;> refine ⟨hS.start, fun h y hy hpos hle => ?_⟩ <;>
    by_cases hh : h = g
  · exact hh ▸ hS.start
  · exact hS.step h y (by rw [graph?_reviseGraph, if_neg hh, hy]) hpos
      (by rwa [callsFrom_reviseGraph])
  · exact hh ▸ hS.start
  · rw [graph?_reviseGraph, if_neg hh] at hy
    rw [callsFrom_reviseGraph] at hle
    exact hS.step h y hy hpos hle

theorem nodesOf_reviseGraph (hi : ∀ y, (f y).index = y.index) (hf : ∀ y, (f y).formals = y.formals)
    (S : Set GraphId) : (r.reviseGraph g f).nodesOf S = r.nodesOf S := by
  ext n
  have hgraph : ∀ h, (∃ y, (r.reviseGraph g f).graph? h = some y ∧ (n ∈ y.index.values ∨
      n ∈ y.formals.nodes ∨ ∃ c x, c ∈ y.index.values ∧ r.node? c = some x ∧
        n ∈ x.actuals.nodes)) ↔ ∃ y, r.graph? h = some y ∧ (n ∈ y.index.values ∨
      n ∈ y.formals.nodes ∨ ∃ c x, c ∈ y.index.values ∧ r.node? c = some x ∧
        n ∈ x.actuals.nodes) := by
    intro h
    rw [graph?_reviseGraph]
    split
    · cases hy : r.graph? h with
      | none => simp
      | some y => simp [hi, hf]
    · exact Iff.rfl
  simp only [nodesOf, node?_reviseGraph, Set.mem_ofPred_eq, hgraph]

/-- What is left does not depend on the references to a graph that is gone. -/
theorem Remains.of_reviseGraph (hi : ∀ y, (f y).index = y.index)
    (hf : ∀ y, (f y).formals = y.formals) (hg : g ∈ D) (h : (r.reviseGraph g f).Remains D t) :
    r.Remains D t := by
  have hnodes := nodesOf_reviseGraph (r := r) (g := g) hi hf D
  have hgraph : ∀ h ∉ D, (r.reviseGraph g f).graph? h = r.graph? h := by
    intro h hh
    have hne : h ≠ g := fun e => hh (e ▸ hg)
    rw [graph?_reviseGraph, if_neg hne]
  obtain ⟨h0, h1, h2, h3, h4, h5, hf, h6, h7, h8, h9⟩ := h
  simp only [hnodes, callsFrom_reviseGraph, node?_reviseGraph] at h2 h3 h4 h5
  refine ⟨fun h hh => ?_, h1, fun h hh => ?_, fun h hh y hy => ?_, h4, h5, fun k j => ?_, ?_, ?_,
    ?_, ?_⟩
  · obtain ⟨y, hy⟩ := h0 h hh
    rw [graph?_reviseGraph] at hy
    split at hy
    · obtain ⟨z, hz, _⟩ := Option.map_eq_some_iff.1 hy
      exact ⟨z, hz⟩
    · exact ⟨y, hy⟩
  · rw [h2 h hh, hgraph h hh]
  · exact h3 h hh y (by rwa [hgraph h hh])
  · rw [hf, lookup?_of_byFunction (byFunction_reviseGraph r g f)]
  · simpa using h6
  · simpa using h7
  · simpa using h8
  · simpa using h9

/-- A teardown may begin with a graph that has lost its last reference. -/
theorem Tearable.of_orderly (hr : r.Orderly m) (g : GraphId) : r.Tearable m g where
  mirrored := hr.mirrored
  housed := hr.housed
  linked := hr.linked
  equipped := hr.equipped
  standing := hr.standing
  enrolled := hr.enrolled
  held h y _ hy := hr.held h y hy

/-- The nodes of some graphs are those that the graphs own. -/
theorem Orderly.mem_nodesOf_iff (hr : r.Orderly m) (S : Set GraphId) {n : NodeId} :
    n ∈ r.nodesOf S ↔ ∃ h ∈ S, r.OwnedBy n h :=
  (Tearable.of_orderly hr ⟨0⟩).mem_nodesOf_iff S

theorem Tearable.release (hr : r.Orderly m) (g : GraphId) :
    (r.reviseGraph g fun y => { y with refcount := y.refcount - 1 }).Tearable m g := by
  have hgrows : r.Grows (r.reviseGraph g fun y => { y with refcount := y.refcount - 1 }) :=
    .reviseGraph fun _ _ => .of_eq rfl rfl rfl rfl fun _ h => h
  have hlinks : r.KeepsLinks (r.reviseGraph g fun y => { y with refcount := y.refcount - 1 }) :=
    .reviseGraph fun _ => rfl
  -- a count is neither a link nor a place
  have hocc := occupant_reviseGraph (r := r) (g := g)
    (f := fun y => { y with refcount := y.refcount - 1 }) (fun _ => rfl) fun _ => rfl
  constructor
  case mirrored => exact hr.mirrored.of_keeps (.of_nodes fun n => by simp) hlinks
  case housed => exact hr.housed.reviseGraph hgrows (fun _ => rfl) fun _ => rfl
  case linked =>
    intro c h hc
    obtain ⟨k, args, hcall⟩ := hr.linked c h ((hlinks.calls c h).1 hc)
    exact ⟨k, args, hcall.grows hgrows⟩
  case equipped =>
    intro c s b n ho
    rw [hocc] at ho
    obtain ⟨k, args, hcall⟩ := hr.equipped c s b n ho
    exact ⟨k, args, hcall.grows hgrows⟩
  case standing =>
    intro h y hy
    rw [graph?_reviseGraph] at hy
    split at hy
    · obtain ⟨z, hz, rfl⟩ := Option.map_eq_some_iff.1 hy
      exact hr.standing h z hz
    · exact hr.standing h y hy
  case enrolled => exact hr.enrolled.reviseGraph fun _ => rfl
  case held =>
    intro h y hne hy
    rw [graph?_reviseGraph, if_neg hne] at hy
    exact hr.held h y hy

end Registry

namespace Work

variable {m : Module} {r t : Registry} {g h : GraphId} {y : Graph}

/-- A teardown that begins with `g` goes through all rounds that it takes. -/
theorem destroy_of_tearable (ht : r.Tearable m g) (hy : r.graph? g = some y) :
    wp Fault.Never (destroy g) (fun _ t => ∃ D, IsLeast {S | r.Falls g S} D ∧ r.Remains D t) r := by
  unfold destroy
  apply wp_registry
  have hw : Progress.start.waiting r ≤ r.graphs.next + 1 := by
    have hcard := Finset.card_filter_le (Finset.range r.graphs.next)
      fun i => (⟨i⟩ : GraphId) ∉ Progress.start.opened
    rw [Finset.card_range] at hcard
    exact hcard.trans (Nat.le_succ _)
  -- before the first round no reference was given back
  have hheld : (Progress.start.withGraph g).Held r := by
    intro h z c hh hz hc
    have hne : h ≠ g := fun e => hh (Or.inl e)
    have hlost : ((Progress.start.withGraph g).lost h z).size = 0 := by
      rw [OrderedSet.size_eq_zero]
      intro d hd
      simp [Progress.lost, Progress.withGraph, Progress.start] at hd
    have hpos : z.refcount ≠ 0 := fun h0 => ht.held h z hne hz h0 c hc
    omega
  have hround := destroyWithin_spec ht (r.graphs.next + 1) Progress.start r g y hw (.start r)
    (.start r g) hheld (Set.notMem_empty g) hy fun S hS => hS.start
  apply wp_mono hround
  intro _ t hq
  obtain ⟨q, hst, hadv, hg⟩ := hq
  have hd : ∀ k ∈ q.opened, q.Done r k := fun k hk => (hadv.done k hk).resolve_left id
  exact ⟨q.opened, Progress.isLeast ht.mirrored hst.sound hst.held hg hd, hst.remains ht hd⟩

/-- **Teardown.** A teardown ends without fault, takes the least set of graphs that falls, and
leaves everything else. -/
theorem destroy_spec (hr : r.Orderly m) (hy : r.graph? g = some y) :
    wp Fault.Never (destroy g) (fun _ t => ∃ D, IsLeast {S | r.Falls g S} D ∧ r.Remains D t) r :=
  destroy_of_tearable (.of_orderly hr g) hy

/-- Giving back a reference tears the graph down if it was the last one. -/
theorem release_spec (hr : r.Orderly m) (hy : r.graph? g = some y) (hpos : 1 ≤ y.refcount) :
    wp Fault.Never (release g) (fun _ t => if y.refcount = 1
      then ∃ D, IsLeast {S | r.Falls g S} D ∧ r.Remains D t
      else t = r.reviseGraph g fun y => { y with refcount := y.refcount - 1 }) r := by
  have hphase := hr.standing g y hy
  have h0 : y.refcount ≠ 0 := by omega
  unfold release unref unrefWith
  apply wp_registry
  rw [hy]
  simp only [h0, if_false]
  apply wp_modifyRegistry
  rw [reviseGraph_eq hy fun y => { y with refcount := y.refcount - 1 }]
  apply wp_report
  by_cases h1 : y.refcount = 1
  · -- the teardown starts from the lowered count, the statement from the count before
    have hlast := destroy_of_tearable (Tearable.release hr g)
      (y := { y with refcount := y.refcount - 1 }) (by rw [graph?_reviseGraph, if_pos rfl, hy]; rfl)
    simp only [h1, hphase, ne_eq, not_false_eq_true, decide_true, Bool.and_self, if_true]
    apply wp_mono hlast
    intro _ t hD
    obtain ⟨D, hleast, hrem⟩ := hD
    have hset : {S | (r.reviseGraph g fun y => { y with refcount := y.refcount - 1 }).Falls g S} =
        {S | r.Falls g S} := Set.ext fun S => falls_reviseGraph
    rw [hset] at hleast
    have hrem' : r.Remains D t := Remains.of_reviseGraph
      (f := fun y => { y with refcount := y.refcount - 1 }) (fun _ => rfl) (fun _ => rfl)
      hleast.1.start hrem
    exact ⟨D, hleast, hrem'⟩
  · simp only [h1, decide_false, Bool.and_false, Bool.false_and, Bool.false_eq_true, if_false]
    exact wp_pure rfl

/-- There is no reference to give back of a graph without any. -/
theorem release_of_unheld (hr : r.Orderly m) (hy : r.graph? g = some y) (h0 : y.refcount = 0) :
    wp (· = .unheld g) (release g) (fun _ _ => False) r := by
  have hphase := hr.standing g y hy
  unfold release unref unrefWith
  apply wp_registry
  rw [hy]
  simp only [h0, hphase, ne_eq, not_false_eq_true, if_true]
  exact wp_throw rfl

/-- There is nothing to tear down of a graph that is gone. -/
theorem destroy_of_none (hn : r.graph? g = none) :
    wp (· = .graphGone g) (destroy g) (fun _ _ => False) r := by
  unfold destroy
  apply wp_registry
  unfold destroyWithin
  apply wp_graph
  · intro y hy
    rw [hn] at hy
    cases hy
  · intro _
    rfl

/-- There is nothing to give back of a graph that is gone. -/
theorem release_of_none (hn : r.graph? g = none) :
    wp Fault.Never (release g) (fun _ t => t = r) r := by
  unfold release unref unrefWith
  apply wp_registry
  rw [hn]
  exact wp_pure rfl

end Work

end Sdg
