import Sdg.Proofs.Twins.Data
import Sdg.Proofs.Twins.Likeness

/-!
# Twins

Registries are twins if all that is in them corresponds. That is a likeness: what is done to twins
alike leaves twins.

Main results:

* `Registry.Twin.of_node`, `Registry.Twin.of_graph` — a node or a graph may be replaced in both;
* `Registry.Twin.freeNode` — a node may be freed in both;
* `Registry.Twin.pushGraph`, `Registry.Twin.removeGraph` — a graph may be registered in both, or
  removed;
* `Shift.likeness` — so twins are alike.
-/

namespace Sdg

open Relator

namespace Registry

/-- Registries that look alike but for the numbers of their nodes and graphs. What calls are
gathered does not matter. -/
structure Twin (ρ : Shift) (r s : Registry) : Prop where
  node : ∀ n n', ρ.Node n n' → Option.Rel (Node.Twin ρ) (r.node? n) (s.node? n')
  graph : ∀ g g', ρ.Graph g g' → Option.Rel (Graph.Twin ρ) (r.graph? g) (s.graph? g')
  /-- Functions are found alike in both. -/
  lookup? : ∀ f, Option.Rel ρ.Graph (r.lookup? f) (s.lookup? f)
  /-- A node of the second registry is shared, or there is one like it in the first. -/
  exists_node : ∀ n' x', s.node? n' = some x' →
    n'.index < ρ.common.nodes.next ∨ ∃ n, ρ.Node n n'
  exists_graph : ∀ g' y', s.graph? g' = some y' → ∃ g, ρ.Graph g g'
  shared : ∀ n, n.index < ρ.common.nodes.next →
    r.node? n = ρ.common.node? n ∧ s.node? n = ρ.common.node? n
  pool : r.pool = ρ.common.pool ∧ s.pool = ρ.common.pool
  nextNode : ρ.Node r.nextNode s.nextNode
  nextGraph : ρ.Graph r.nextGraph s.nextGraph

namespace Twin

variable {ρ : Shift} {r s r' s' : Registry} {n n' : NodeId} {g g' : GraphId} {x x' : Node}
  {y y' : Graph}

/-- Twins look alike after a node was replaced in both. -/
theorem of_node {o o' : Option Node} (h : r.Twin ρ s) (hn : ρ.Node n n')
    (ho : Option.Rel (Node.Twin ρ) o o') (hr : ∀ k, r'.node? k = if k = n then o else r.node? k)
    (hs : ∀ k, s'.node? k = if k = n' then o' else s.node? k) (hrg : r'.graphs = r.graphs)
    (hsg : s'.graphs = s.graphs) (hrf : r'.byFunction = r.byFunction)
    (hsf : s'.byFunction = s.byFunction) (hrp : r'.pool = r.pool) (hsp : s'.pool = s.pool)
    (hnext : ρ.Node r'.nextNode s'.nextNode) : r'.Twin ρ s' where
  node k k' hk := by
    rw [hr, hs]
    exact optionRel_ite (rel_eq ρ.biUnique_node hk hn) ho fun _ => h.node k k' hk
  graph := by
    unfold graph?
    rw [hrg, hsg]
    exact h.graph
  lookup? f := by
    rw [lookup?_of_byFunction hrf, lookup?_of_byFunction hsf]
    exact h.lookup? f
  exists_node k' z' hz' := by
    rw [hs] at hz'
    split at hz'
    · rename_i hk
      exact Or.inr ⟨n, hk ▸ hn⟩
    · exact h.exists_node k' z' hz'
  exists_graph := by
    unfold graph?
    rw [hsg]
    exact h.exists_graph
  shared k hk := by
    -- the node that was replaced is not shared
    obtain ⟨hkn, hkn'⟩ := hn.ne_shared hk
    rw [hr, hs, if_neg hkn, if_neg hkn']
    exact h.shared k hk
  pool := by
    rw [hrp, hsp]
    exact h.pool
  nextNode := hnext
  nextGraph := by
    unfold Registry.nextGraph
    rw [hrg, hsg]
    exact h.nextGraph

/-- Twins look alike after a graph was replaced in both. -/
theorem of_graph {o o' : Option Graph} (h : r.Twin ρ s) (hg : ρ.Graph g g')
    (ho : Option.Rel (Graph.Twin ρ) o o')
    (hr : ∀ k, r'.graph? k = if k = g then o else r.graph? k)
    (hs : ∀ k, s'.graph? k = if k = g' then o' else s.graph? k) (hrn : r'.nodes = r.nodes)
    (hsn : s'.nodes = s.nodes) (hf : ∀ f, Option.Rel ρ.Graph (r'.lookup? f) (s'.lookup? f))
    (hrp : r'.pool = r.pool) (hsp : s'.pool = s.pool)
    (hnext : ρ.Graph r'.nextGraph s'.nextGraph) : r'.Twin ρ s' where
  node := by
    unfold node?
    rw [hrn, hsn]
    exact h.node
  graph k k' hk := by
    rw [hr, hs]
    exact optionRel_ite (rel_eq ρ.biUnique_graph hk hg) ho fun _ => h.graph k k' hk
  lookup? := hf
  exists_node := by
    unfold node?
    rw [hsn]
    exact h.exists_node
  exists_graph k' z' hz' := by
    rw [hs] at hz'
    split at hz'
    · rename_i hk
      exact ⟨g, hk ▸ hg⟩
    · exact h.exists_graph k' z' hz'
  shared := by
    simp only [node?, hrn, hsn]
    exact h.shared
  pool := by
    rw [hrp, hsp]
    exact h.pool
  nextNode := by
    unfold Registry.nextNode
    rw [hrn, hsn]
    exact h.nextNode
  nextGraph := hnext

/-! ## New nodes and graphs -/

theorem pushNode (h : r.Twin ρ s) (hx : x.Twin ρ x') : (r.pushNode x).Twin ρ (s.pushNode x') := by
  refine h.of_node h.nextNode (.some hx) (node?_pushNode r x) (node?_pushNode s x') rfl rfl rfl
    rfl rfl rfl ?_
  have hnext := h.nextNode
  simp only [Shift.Node, Registry.nextNode, Registry.pushNode, Arena.next_push] at hnext ⊢
  omega

theorem pushGraph (h : r.Twin ρ s) (hy : y.Twin ρ y') :
    (r.pushGraph y).Twin ρ (s.pushGraph y') := by
  refine h.of_graph h.nextGraph (.some hy) (graph?_pushGraph r y) (graph?_pushGraph s y') rfl rfl
    (lookup?_pushGraph_like (ν := ρ) h.lookup? hy.function h.nextGraph) rfl rfl ?_
  have hnext := h.nextGraph
  simp only [Shift.Graph, Registry.nextGraph, Registry.pushGraph, Arena.next_push] at hnext ⊢
  omega

/-! ## Replaced nodes and graphs -/

/-- A node is written over another one. -/
theorem setNode (h : r.Twin ρ s) (hn : ρ.Node n n') (hx : x.Twin ρ x') :
    Registry.Twin ρ { r with nodes := r.nodes.set n.index x }
      { s with nodes := s.nodes.set n'.index x' } := by
  have hnext := h.nextNode
  refine h.of_node hn (optionRel_map (h.node n n' hn) fun _ _ _ => hx) (node?_setNode r n x)
    (node?_setNode s n' x') rfl rfl rfl rfl rfl rfl ?_
  simp only [Shift.Node, Registry.nextNode, Arena.next_set] at hnext ⊢
  exact hnext

theorem setGraph (h : r.Twin ρ s) (hg : ρ.Graph g g') (hy : y.Twin ρ y') :
    Registry.Twin ρ { r with graphs := r.graphs.set g.index y }
      { s with graphs := s.graphs.set g'.index y' } := by
  have hnext := h.nextGraph
  refine h.of_graph hg (optionRel_map (h.graph g g' hg) fun _ _ _ => hy) (graph?_setGraph r g y)
    (graph?_setGraph s g' y') rfl rfl h.lookup? rfl rfl ?_
  simp only [Shift.Graph, Registry.nextGraph, Arena.next_set] at hnext ⊢
  exact hnext

theorem removeGraph (h : r.Twin ρ s) (f : FunctionId) (hg : ρ.Graph g g') :
    (r.removeGraph f g).Twin ρ (s.removeGraph f g') := by
  have hnext := h.nextGraph
  refine h.of_graph hg .none (graph?_removeGraph r f g) (graph?_removeGraph s f g') rfl rfl
    (lookup?_removeGraph_like (ν := ρ) h.lookup? hg f) rfl rfl ?_
  simp only [Shift.Graph, Registry.nextGraph, Registry.removeGraph, Arena.next_erase] at hnext ⊢
  exact hnext

/-! ## Freed nodes -/

/-- A shared node is in no edge set of another node. -/
theorem not_mem_of_shared {k : NodeId} {t t' : OrderedSet NodeId} (h : t.Rel ρ.Node t')
    (hk : k.index < ρ.common.nodes.next) : k ∉ t ∧ k ∉ t' := by
  constructor
  · intro hkt
    obtain ⟨_, hn⟩ := h.exists_left hkt
    exact (hn.ne_shared hk).1 rfl
  · intro hkt
    obtain ⟨_, hn⟩ := h.exists_right hkt
    exact (hn.ne_shared hk).2 rfl

/-- So it loses nothing when a node is freed. -/
theorem withoutNeighbour_eq_self {z : Node} {k : NodeId} (hx : x.Twin ρ x')
    (hk : k.index < ρ.common.nodes.next) :
    withoutNeighbour n x k z = z ∧ withoutNeighbour n' x' k z = z := by
  obtain ⟨h1, h1'⟩ := not_mem_of_shared hx.controls hk
  obtain ⟨h2, h2'⟩ := not_mem_of_shared hx.controlledBy hk
  obtain ⟨h3, h3'⟩ := not_mem_of_shared hx.feeds hk
  obtain ⟨h4, h4'⟩ := not_mem_of_shared hx.fedBy hk
  constructor
  · rw [withoutNeighbour, if_neg h1, if_neg h2, if_neg h3, if_neg h4]
  · rw [withoutNeighbour, if_neg h1', if_neg h2', if_neg h3', if_neg h4']

theorem freeNode (h : r.Twin ρ s) (hn : ρ.Node n n') :
    (r.freeNode n).Twin ρ (s.freeNode n') := by
  cases hx : r.node? n with
  | none =>
    have hx' := h.node n n' hn
    rw [hx] at hx'
    generalize ho : s.node? n' = o at hx'
    cases hx'
    rwa [freeNode_of_none hx, freeNode_of_none ho]
  | some x =>
    obtain ⟨x', hx', hxx⟩ := optionRel_of_eq_some (h.node n n' hn) hx
    constructor
    case node =>
      intro k k' hk
      rw [node?_freeNode hx, node?_freeNode hx']
      refine optionRel_ite (rel_eq ρ.biUnique_node hk hn) .none fun _ => ?_
      refine optionRel_map (h.node k k' hk) fun z z' hz => ?_
      rw [← Node.like_eq] at hxx hz ⊢
      exact withoutNeighbour_like (ν := ρ) hn hxx hk hz
    case graph =>
      intro k k' hk
      rw [graph?_freeNode, graph?_freeNode]
      exact h.graph k k' hk
    case lookup? =>
      intro f
      rw [lookup?_of_byFunction (byFunction_freeNode r n),
        lookup?_of_byFunction (byFunction_freeNode s n')]
      exact h.lookup? f
    case exists_node =>
      intro k' z' hz'
      rw [node?_freeNode hx'] at hz'
      split at hz'
      · cases hz'
      · obtain ⟨z, hz, _⟩ := Option.map_eq_some_iff.1 hz'
        exact h.exists_node k' z hz
    case exists_graph =>
      intro k' z' hz'
      rw [graph?_freeNode] at hz'
      exact h.exists_graph k' z' hz'
    case shared =>
      intro k hk
      obtain ⟨hkr, hks⟩ := h.shared k hk
      -- shared nodes are in no neighbourhood of a node of a graph
      have hself : ∀ z, withoutNeighbour n x k z = z ∧ withoutNeighbour n' x' k z = z :=
        fun _ => withoutNeighbour_eq_self hxx hk
      obtain ⟨hkn, hkn'⟩ := hn.ne_shared hk
      rw [node?_freeNode hx, node?_freeNode hx', if_neg hkn, if_neg hkn', hkr, hks]
      have hl : withoutNeighbour n x k = id := funext fun z => (hself z).1
      have hr : withoutNeighbour n' x' k = id := funext fun z => (hself z).2
      rw [hl, hr, Option.map_id, id]
      exact ⟨rfl, rfl⟩
    case pool =>
      rw [pool_freeNode, pool_freeNode]
      exact h.pool
    case nextNode =>
      rw [nextNode_freeNode, nextNode_freeNode]
      exact h.nextNode
    case nextGraph =>
      rw [nextGraph_freeNode, nextGraph_freeNode]
      exact h.nextGraph

end Twin

end Registry

/-- Twins are alike. -/
def Shift.likeness (ρ : Shift) : Likeness where
  toNaming := ρ.naming
  Holds r s := r.Twin ρ s
  node h hn := Node.like_eq (ρ := ρ) ▸ h.node _ _ hn
  graph h hg := Graph.like_eq (ρ := ρ) ▸ h.graph _ _ hg
  lookup? f h := h.lookup? f
  nextNode h := h.nextNode
  nextGraph h := h.nextGraph
  pushNode h hx := h.pushNode (Node.like_eq (ρ := ρ) ▸ hx)
  pushGraph h hy := h.pushGraph (Graph.like_eq (ρ := ρ) ▸ hy)
  setNode h hn hx := h.setNode hn (Node.like_eq (ρ := ρ) ▸ hx)
  setGraph h hg hy := h.setGraph hg (Graph.like_eq (ρ := ρ) ▸ hy)
  freeNode h hn := h.freeNode hn
  removeGraph f h hg := h.removeGraph f hg
  -- what is gathered does not matter
  gather h _ := { h with }

instance : CoeOut Shift Likeness := ⟨Shift.likeness⟩

end Sdg
