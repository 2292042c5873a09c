import Mathlib.Data.Set.Basic
import Mathlib.Data.Set.Insert
import Sdg.Proofs.Registry.Order
import Sdg.Proofs.Teardown.Freeing

/-!
# Progress of a teardown

A teardown goes through the registry graph by graph and node by node, and it nests: giving back the
last reference to a graph tears that graph down in the middle of the node that gave it back.
`Progress` remembers what has happened so far, and `Progress.At` says what the registry looks like
then. It is exact about nodes and about the graphs that stand; a graph that is going is known by its
phase alone, since nobody looks at the rest of it any more.

Main results:

* `Progress.At.opened` — a graph begins to go, and no caller knows it any more;
* `Progress.At.given` — a reference to a standing graph was given back;
* `Progress.At.freed` — a node was freed.
-/

namespace Sdg

open scoped Classical

/-- What a teardown has done so far. -/
structure Progress where
  /-- The graphs that are going or gone. -/
  opened : Set GraphId
  /-- The links that were given back while their graph stood. -/
  cut : Set (NodeId × GraphId)
  /-- The nodes that were freed. -/
  freed : Set NodeId
  /-- The graphs that are gone. -/
  gone : Set GraphId

namespace Progress

/-- Nothing has happened. -/
def start : Progress := ⟨∅, ∅, ∅, ∅⟩

/-- The graph `g` begins to go. -/
def withGraph (p : Progress) (g : GraphId) : Progress := { p with opened := insert g p.opened }

/-- The link of `c` to `g` is given back. -/
def withLink (p : Progress) (c : NodeId) (g : GraphId) : Progress :=
  { p with cut := insert (c, g) p.cut }

/-- The node `n` is freed. -/
def withNode (p : Progress) (n : NodeId) : Progress := { p with freed := insert n p.freed }

/-- The graph `g` is gone. -/
def withoutGraph (p : Progress) (g : GraphId) : Progress := { p with gone := insert g p.gone }

/-- What is left of the node `n`, which was `x`. -/
noncomputable def node (p : Progress) (n : NodeId) (x : Node) : Node := { x with
  controls := x.controls.filter fun k => k ∉ p.freed
  controlledBy := x.controlledBy.filter fun k => k ∉ p.freed
  feeds := x.feeds.filter fun k => k ∉ p.freed
  fedBy := x.fedBy.filter fun k => k ∉ p.freed
  callees := x.callees.filter fun g => g ∉ p.opened ∨ (n, g) ∈ p.cut }

/-- The callers of the graph `g`, which was `y`, that have given back their links. -/
noncomputable def lost (p : Progress) (g : GraphId) (y : Graph) : OrderedSet NodeId :=
  y.callers.filter fun c => (c, g) ∈ p.cut

/-- What is left of the standing graph `g`, which was `y`. -/
noncomputable def graph (p : Progress) (g : GraphId) (y : Graph) : Graph := { y with
  callers := y.callers.filter fun c => (c, g) ∉ p.cut
  refcount := y.refcount - (p.lost g y).size }

/-- The registry `r` looks like `s` by now. -/
structure At (p : Progress) (r s : Registry) : Prop where
  node : ∀ n, s.node? n = if n ∈ p.freed then none else (r.node? n).map (p.node n)
  graph : ∀ g, g ∉ p.opened → s.graph? g = (r.graph? g).map (p.graph g)
  going : ∀ g y, g ∈ p.opened → s.graph? g = some y → y.phase = .destroying
  gone : ∀ g, g ∈ p.gone → s.graph? g = none
  /-- A graph is found under its function until it is gone. -/
  found : ∀ f g, s.lookup? f = some g ↔ r.lookup? f = some g ∧ g ∉ p.gone
  nextNode : s.nextNode = r.nextNode
  nextGraph : s.nextGraph = r.nextGraph
  pool : s.pool = r.pool
  gathered : s.gathered = r.gathered

open Registry

variable {p : Progress} {r s t : Registry} {n c : NodeId} {g h : GraphId} {x : Node} {y : Graph}

theorem node_start (n : NodeId) (x : Node) : start.node n x = x := by
  have h : ∀ s : OrderedSet NodeId, s.filter (fun k => decide (k ∉ start.freed)) = s :=
    fun s => OrderedSet.filter_eq_self (by simp [start])
  have hc : x.callees.filter (fun g => decide (g ∉ start.opened ∨ (n, g) ∈ start.cut)) =
      x.callees := OrderedSet.filter_eq_self (by simp [start])
  simp only [node, h, hc]

theorem graph_start (g : GraphId) (y : Graph) : start.graph g y = y := by
  have h : y.callers.filter (fun c => decide ((c, g) ∉ start.cut)) = y.callers :=
    OrderedSet.filter_eq_self (by simp [start])
  have h0 : (start.lost g y).size = 0 :=
    OrderedSet.size_eq_zero.2 fun c hc => by simp [lost, start] at hc
  simp only [graph, h, h0, Nat.sub_zero]

/-- What leaves the entries of all functions as they are does not matter for what is found. -/
theorem At.found_of_byFunction (ha : p.At r s) (ht : t.byFunction = s.byFunction)
    (f : FunctionId) (g : GraphId) : t.lookup? f = some g ↔ r.lookup? f = some g ∧ g ∉ p.gone := by
  rw [lookup?_of_byFunction ht]
  exact ha.found f g

theorem At.start (r : Registry) : start.At r r where
  node n := by
    have h : Progress.start.node n = id := funext (node_start n)
    have hf : n ∉ Progress.start.freed := Set.notMem_empty n
    rw [if_neg hf, h, Option.map_id_fun, id]
  graph g _ := by
    have h : Progress.start.graph g = id := funext (graph_start g)
    rw [h, Option.map_id_fun, id]
  going g y hg _ := hg.elim
  gone g hg := hg.elim
  found f g := (and_iff_left (Set.notMem_empty g)).symm
  nextNode := rfl
  nextGraph := rfl
  pool := rfl
  gathered := rfl

/-! ## A graph begins to go -/

/-- A link that is not given back is forgotten by its call when its graph begins to go. -/
theorem node_withGraph (hg : g ∉ p.opened) (n : NodeId) (x : Node) :
    (p.withGraph g).node n x = if (n, g) ∈ p.cut then p.node n x
      else { p.node n x with callees := (p.node n x).callees.erase g } := by
  have hcallees : x.callees.filter (fun h => decide (h ∉ (p.withGraph g).opened ∨
      (n, h) ∈ (p.withGraph g).cut)) = if (n, g) ∈ p.cut then (p.node n x).callees
        else (p.node n x).callees.erase g := by
    split
    · -- the link was given back, so the call knows the graph still
      refine OrderedSet.filter_congr fun h _ => ?_
      by_cases hh : h = g
      · subst hh
        simp_all [withGraph]
      · simp [withGraph, hh]
    · -- the link is forgotten, and no other one is
      rw [OrderedSet.erase_eq_filter, node, OrderedSet.filter_filter]
      refine OrderedSet.filter_congr fun h _ => ?_
      by_cases hh : h = g
      · subst hh
        simp_all [withGraph]
      · simp [withGraph, hh]
  unfold node at hcallees ⊢
  rw [hcallees]
  split <;> rfl

theorem At.opened (hm : r.Mirrored) (ha : p.At r s) (hg : g ∉ p.opened)
    (hgone : ∀ h ∈ p.gone, h ≠ g)
    (hy : r.graph? g = some y)
    (hnode : ∀ n, t.node? n = if n ∈ (p.graph g y).callers then
      (s.node? n).map fun x => { x with callees := x.callees.erase g } else s.node? n)
    (hgraph : ∀ h, h ≠ g → t.graph? h = s.graph? h)
    (hphase : ∀ z, t.graph? g = some z → z.phase = .destroying)
    (hnn : t.nextNode = s.nextNode) (hng : t.nextGraph = s.nextGraph) (hp : t.pool = s.pool)
    (hga : t.gathered = s.gathered) (hf : t.byFunction = s.byFunction) :
    (p.withGraph g).At r t where
  node n := by
    rw [hnode n, ha.node n]
    -- a freed node is gone, whatever happens to graphs
    by_cases hf : n ∈ p.freed
    · have hf' : n ∈ (p.withGraph g).freed := hf
      simp [hf, hf']
    have hf' : n ∉ (p.withGraph g).freed := hf
    rw [if_neg hf, if_neg hf']
    cases hx : r.node? n with
    | none => simp
    | some x =>
      -- the callers are the calls that have not given back their links
      have hcallers : n ∈ (p.graph g y).callers ↔ g ∈ x.callees ∧ (n, g) ∉ p.cut := by
        simp [Progress.graph, hm.mem_callers hx hy]
      rw [Option.map_some, Option.map_some, Option.map_some, node_withGraph hg]
      by_cases hcut : (n, g) ∈ p.cut
      · -- the graph does not know this caller any more
        rw [if_neg (by simp [hcallers, hcut]), if_pos hcut]
      · rw [if_neg hcut]
        by_cases hgx : g ∈ x.callees
        · -- the node is one of the callers
          rw [if_pos (hcallers.2 ⟨hgx, hcut⟩)]
        · -- the node was not linked to the graph, so there is nothing to forget
          rw [if_neg (by simp [hcallers, hgx])]
          have hsame : (p.node n x).callees.erase g = (p.node n x).callees := by
            rw [OrderedSet.erase_eq_filter]
            refine OrderedSet.filter_eq_self fun h hh => ?_
            have hne : h ≠ g := by
              intro hs
              subst hs
              exact hgx (OrderedSet.mem_filter.1 hh).1
            simp [hne]
          rw [hsame]
  graph h hh := by
    have hne : h ≠ g := fun e => hh (by simp [withGraph, e])
    have hh' : h ∉ p.opened := fun ho => hh (by simp [withGraph, ho])
    rw [hgraph h hne, ha.graph h hh']
    rfl
  going h z hh hz := by
    by_cases hne : h = g
    · subst hne
      exact hphase z hz
    · rw [hgraph h hne] at hz
      refine ha.going h z ?_ hz
      simpa [withGraph, hne] using hh
  gone h hh := by
    rw [hgraph h (hgone h hh)]
    exact ha.gone h hh
  found := ha.found_of_byFunction hf
  nextNode := hnn.trans ha.nextNode
  nextGraph := hng.trans ha.nextGraph
  pool := hp.trans ha.pool
  gathered := hga.trans ha.gathered

/-! ## Graphs that are going -/

/-- Nobody looks at a graph that is going, other than at its phase. -/
theorem At.going_reviseGraph (ha : p.At r s) (hg : g ∈ p.opened) {f : Graph → Graph}
    (hf : ∀ y, (f y).phase = y.phase) : p.At r (s.reviseGraph g f) where
  node n := by
    rw [node?_reviseGraph]
    exact ha.node n
  graph h hh := by
    -- a standing graph is not the one that is going
    have hne : h ≠ g := fun e => hh (e ▸ hg)
    rw [graph?_reviseGraph, if_neg hne]
    exact ha.graph h hh
  going h z hh hz := by
    rw [graph?_reviseGraph] at hz
    split at hz
    · obtain ⟨y, hy, rfl⟩ := Option.map_eq_some_iff.1 hz
      rw [hf y]
      exact ha.going h y hh hy
    · exact ha.going h z hh hz
  gone h hh := by
    rw [graph?_reviseGraph, ha.gone h hh]
    simp
  found := ha.found_of_byFunction (byFunction_reviseGraph s g f)
  nextNode := (nextNode_reviseGraph s g f).trans ha.nextNode
  nextGraph := (nextGraph_reviseGraph s g f).trans ha.nextGraph
  pool := (pool_reviseGraph s g f).trans ha.pool
  gathered := (gathered_reviseGraph s g f).trans ha.gathered

/-- With a graph that goes its entry goes, and no other. -/
theorem At.found_removeGraph (hr : r.Enrolled) (ha : p.At r s) (hy : r.graph? g = some y)
    (f : FunctionId) (h : GraphId) : (s.removeGraph y.function g).lookup? f = some h ↔
      r.lookup? f = some h ∧ h ∉ (p.withoutGraph g).gone := by
  have hg : r.lookup? y.function = some g := (hr _ g).2 ⟨y, hy, rfl⟩
  have hgone : h ∉ (p.withoutGraph g).gone ↔ h ≠ g ∧ h ∉ p.gone := by
    simp [withoutGraph]
  rw [lookup?_removeGraph, hgone]
  split
  · rename_i hk
    -- the entry that goes is that of the graph
    refine iff_of_false nofun fun ⟨hf, hne, _⟩ => hne ?_
    rw [hk.1, hg] at hf
    exact (Option.some.inj hf).symm
  · rename_i hk
    rw [ha.found]
    refine ⟨fun ⟨hf, hh⟩ => ⟨hf, fun e => hk ?_, hh⟩, fun ⟨hf, _, hh⟩ => ⟨hf, hh⟩⟩
    -- the graph is entered under its own function alone
    subst e
    obtain rfl := hr.function_eq hf hg
    exact ⟨rfl, (ha.found _ h).2 ⟨hf, hh⟩⟩

/-- A graph that is going is gone in the end. -/
theorem At.erased (hr : r.Enrolled) (ha : p.At r s) (hg : g ∈ p.opened)
    (hy : r.graph? g = some y) : (p.withoutGraph g).At r (s.removeGraph y.function g) := by
  have hgraph := graph?_removeGraph s y.function g
  constructor
  case node => exact ha.node
  case graph =>
    intro h hh
    have hne : h ≠ g := fun e => hh (e ▸ hg)
    rw [hgraph, if_neg hne]
    exact ha.graph h hh
  case going =>
    intro h z hh hz
    rw [hgraph] at hz
    split at hz
    · cases hz
    · exact ha.going h z hh hz
  case gone =>
    intro h hh
    rw [hgraph]
    split
    · rfl
    · rename_i hne
      rcases hh with hh | hh
      · exact absurd hh hne
      · exact ha.gone h hh
  case found => exact ha.found_removeGraph hr hy
  case nextNode => exact ha.nextNode
  case nextGraph =>
    have hnext : (s.removeGraph y.function g).nextGraph = s.nextGraph := by
      simp [Registry.nextGraph, removeGraph]
    exact hnext.trans ha.nextGraph
  case pool => exact ha.pool
  case gathered => exact ha.gathered

/-! ## A reference is given back -/

/-- One caller more has given back its link. -/
theorem lost_withLink (hc : c ∈ y.callers) (hcut : (c, g) ∉ p.cut) :
    ((p.withLink c g).lost g y).size = (p.lost g y).size + 1 := by
  -- the callers that have given back their links by now are those from before and `c`
  have hmem : ∀ k, k ∈ (p.withLink c g).lost g y ↔ k ∈ (p.lost g y).insert c := by
    intro k
    simp only [lost, withLink, OrderedSet.mem_filter, OrderedSet.mem_insert, decide_eq_true_eq,
      Set.mem_insert_iff, Prod.mk.injEq, and_true]
    constructor
    · intro hp
      obtain ⟨hk, rfl | h⟩ := hp
      · exact Or.inr rfl
      · exact Or.inl ⟨hk, h⟩
    · intro hp
      rcases hp with ⟨hk, h⟩ | rfl
      · exact ⟨hk, Or.inr h⟩
      · exact ⟨hc, Or.inl rfl⟩
  have hnew : c ∉ p.lost g y := by
    intro h
    exact hcut (by simpa [lost, hc] using h)
  rw [OrderedSet.size_eq_of_mem_iff hmem, OrderedSet.size_insert_of_not_mem hnew]

theorem lost_withLink_of_ne (hh : h ≠ g) (c : NodeId) (y : Graph) :
    (p.withLink c g).lost h y = p.lost h y := by
  refine OrderedSet.filter_congr fun k _ => ?_
  simp [withLink, hh]

/-- A standing graph forgets the caller that gives back its link, and counts one reference less. -/
theorem graph_withLink (hc : c ∈ y.callers) (hcut : (c, g) ∉ p.cut) :
    (p.withLink c g).graph g y = { p.graph g y with
      callers := (p.graph g y).callers.erase c
      refcount := (p.graph g y).refcount - 1 } := by
  have hcallers : y.callers.filter (fun k => decide ((k, g) ∉ (p.withLink c g).cut)) =
      (p.graph g y).callers.erase c := by
    rw [OrderedSet.erase_eq_filter, graph, OrderedSet.filter_filter]
    refine OrderedSet.filter_congr fun k _ => ?_
    simp [withLink, Bool.and_comm]
  -- one reference more was given back
  have hcount : y.refcount - ((p.withLink c g).lost g y).size =
      y.refcount - (p.lost g y).size - 1 := by
    rw [lost_withLink hc hcut]
    omega
  unfold graph at hcallers ⊢
  rw [hcallers, hcount]

/-- The calls know the graph that they gave back until it goes. -/
theorem node_withLink (hg : g ∉ p.opened) (c n : NodeId) (x : Node) :
    (p.withLink c g).node n x = p.node n x := by
  have hcallees : x.callees.filter (fun h => decide (h ∉ (p.withLink c g).opened ∨
      (n, h) ∈ (p.withLink c g).cut)) = (p.node n x).callees := by
    refine OrderedSet.filter_congr fun h _ => ?_
    by_cases hh : h = g
    · subst hh
      simp [withLink, hg]
    · simp [withLink, hh]
  unfold node at hcallees ⊢
  rw [hcallees]
  rfl

theorem graph_withLink_of_ne (hh : h ≠ g) (c : NodeId) (y : Graph) :
    (p.withLink c g).graph h y = p.graph h y := by
  have hcallers : y.callers.filter (fun k => decide ((k, h) ∉ (p.withLink c g).cut)) =
      y.callers.filter fun k => decide ((k, h) ∉ p.cut) := by
    refine OrderedSet.filter_congr fun k _ => ?_
    simp [withLink, hh]
  unfold graph
  rw [hcallers, lost_withLink_of_ne hh]

theorem At.given (ha : p.At r s) (hg : g ∉ p.opened) (hy : r.graph? g = some y)
    (hc : c ∈ y.callers) (hcut : (c, g) ∉ p.cut) :
    (p.withLink c g).At r (s.reviseGraph g fun z => { z with
      callers := z.callers.erase c, refcount := z.refcount - 1 }) where
  node n := by
    -- no node sees that a link to a standing graph was given back
    have hsame : (p.withLink c g).node n = p.node n := funext (node_withLink hg c n)
    rw [node?_reviseGraph, hsame]
    exact ha.node n
  graph h hh := by
    have hh' : h ∉ p.opened := hh
    rw [graph?_reviseGraph]
    split
    · rename_i e
      subst e
      rw [ha.graph h hh', hy, Option.map_some, Option.map_some, Option.map_some,
        graph_withLink hc hcut]
    · rename_i hne
      have hsame : (p.withLink c g).graph h = p.graph h := funext (graph_withLink_of_ne hne c)
      rw [ha.graph h hh', hsame]
  going h z hh hz := by
    have hne : h ≠ g := fun e => hg (e ▸ hh)
    rw [graph?_reviseGraph, if_neg hne] at hz
    exact ha.going h z hh hz
  gone h hh := by
    rw [graph?_reviseGraph, ha.gone h hh]
    simp
  found := ha.found_of_byFunction (byFunction_reviseGraph s g _)
  nextNode := (nextNode_reviseGraph s g _).trans ha.nextNode
  nextGraph := (nextGraph_reviseGraph s g _).trans ha.nextGraph
  pool := (pool_reviseGraph s g _).trans ha.pool
  gathered := (gathered_reviseGraph s g _).trans ha.gathered

/-! ## A node is freed -/

/-- One node less is taken out, if the set has it. -/
theorem filter_withNode {a : OrderedSet NodeId} {P : Prop} [Decidable P] (hP : n ∈ a → P) :
    a.filter (fun k => decide (k ∉ (p.withNode n).freed)) =
      if P then (a.filter fun k => decide (k ∉ p.freed)).erase n
        else a.filter fun k => decide (k ∉ p.freed) := by
  split
  · rw [OrderedSet.erase_eq_filter, OrderedSet.filter_filter]
    refine OrderedSet.filter_congr fun k _ => ?_
    simp [withNode, Bool.and_comm]
  · rename_i hp
    refine OrderedSet.filter_congr fun k hk => ?_
    have hne : k ≠ n := by
      intro hs
      subst hs
      exact hp (hP hk)
    simp [withNode, hne]

/-- The neighbours of a node know it, so they are told when it is freed. -/
theorem node_withNode (hm : r.Mirrored) (hx : r.node? n = some x) {k : NodeId} {z : Node}
    (hz : r.node? k = some z) (hk : k ∉ p.freed) :
    (p.withNode n).node k z = withoutNeighbour n (p.node n x) k (p.node k z) := by
  -- each of the four edges between the two nodes is kept at both of them
  have h1 : n ∈ z.controls → k ∈ (p.node n x).controlledBy := by
    intro h
    have hkn := (hm.controls k n).1 ⟨z, hz, h⟩
    simp only [ControlledBy, hx, Option.some.injEq, exists_eq_left'] at hkn
    simp [node, hkn, hk]
  have h2 : n ∈ z.controlledBy → k ∈ (p.node n x).controls := by
    intro h
    have hkn := (hm.controls n k).2 ⟨z, hz, h⟩
    simp only [Controls, hx, Option.some.injEq, exists_eq_left'] at hkn
    simp [node, hkn, hk]
  have h3 : n ∈ z.feeds → k ∈ (p.node n x).fedBy := by
    intro h
    have hkn := (hm.feeds k n).1 ⟨z, hz, h⟩
    simp only [FedBy, hx, Option.some.injEq, exists_eq_left'] at hkn
    simp [node, hkn, hk]
  have h4 : n ∈ z.fedBy → k ∈ (p.node n x).feeds := by
    intro h
    have hkn := (hm.feeds n k).2 ⟨z, hz, h⟩
    simp only [Feeds, hx, Option.some.injEq, exists_eq_left'] at hkn
    simp [node, hkn, hk]
  unfold withoutNeighbour
  rw [node, filter_withNode h1, filter_withNode h2, filter_withNode h3, filter_withNode h4]
  rfl

theorem At.freed (hm : r.Mirrored) (ha : p.At r s) (hx : r.node? n = some x) :
    (p.withNode n).At r (s.freeNode n) where
  node k := by
    have hsn := ha.node n
    by_cases hf : n ∈ p.freed
    · -- it was freed before
      have hsame : p.withNode n = p := by
        simp [withNode, Set.insert_eq_of_mem hf]
      rw [if_pos hf] at hsn
      rw [freeNode_of_none hsn, hsame]
      exact ha.node k
    rw [if_neg hf, hx, Option.map_some] at hsn
    rw [node?_freeNode hsn]
    -- the node itself, a node that was freed before, and one that stays
    by_cases hk : k = n
    · have hin : k ∈ (p.withNode n).freed := Or.inl hk
      rw [if_pos hk, if_pos hin]
    rw [if_neg hk, ha.node k]
    by_cases hkf : k ∈ p.freed
    · have hin : k ∈ (p.withNode n).freed := Or.inr hkf
      rw [if_pos hkf, if_pos hin, Option.map_none]
    · have hout : k ∉ (p.withNode n).freed := by
        intro hp
        rcases hp with h | h
        · exact hk h
        · exact hkf h
      rw [if_neg hkf, if_neg hout]
      cases hz : r.node? k with
      | none => rfl
      | some z =>
        rw [Option.map_some, Option.map_some, Option.map_some, node_withNode hm hx hz hkf]
  graph h hh := by
    rw [graph?_freeNode]
    exact ha.graph h hh
  going h z hh hz := by
    rw [graph?_freeNode] at hz
    exact ha.going h z hh hz
  gone h hh := by
    rw [graph?_freeNode]
    exact ha.gone h hh
  found := ha.found_of_byFunction (byFunction_freeNode s n)
  nextNode := (nextNode_freeNode s n).trans ha.nextNode
  nextGraph := (nextGraph_freeNode s n).trans ha.nextGraph
  pool := (pool_freeNode s n).trans ha.pool
  gathered := (gathered_freeNode s n).trans ha.gathered

end Progress

end Sdg
