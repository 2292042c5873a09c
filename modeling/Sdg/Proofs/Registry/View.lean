import Sdg.Build.Teardown
import Sdg.Proofs.Collection

/-!
# The view of a registry

A registry is known by its live nodes, its live graphs, the entries of functions, the pool, the
gathered calls and the next places. This module says what the elementary changes do to that view, and names the relations
between nodes and graphs that the invariants are about. A relation holds of live nodes and graphs
only: where an id was freed nothing holds of it.
-/

namespace Sdg

namespace Registry

variable {r s : Registry} {a b c n : NodeId} {g h : GraphId}

/-- The name of the next node. -/
def nextNode (r : Registry) : NodeId := ⟨r.nodes.next⟩

/-- The name of the next graph. -/
def nextGraph (r : Registry) : GraphId := ⟨r.graphs.next⟩

/-- The names of the next two nodes. -/
def nextPair (r : Registry) : ParameterPair := ⟨⟨r.nodes.next⟩, ⟨r.nodes.next + 1⟩⟩

/-- Adds a node. -/
def pushNode (r : Registry) (x : Node) : Registry := { r with nodes := r.nodes.push x }

/-- Adds a graph and enters it under its function. -/
def pushGraph (r : Registry) (y : Graph) : Registry := { r with
  graphs := r.graphs.push y
  byFunction := r.byFunction.insert y.function r.nextGraph }

/-- Adds two nodes of a graph under one key. -/
def pushPair (r : Registry) (g : GraphId) (key : NodeKey) : Registry :=
  (r.pushNode (.fresh key (some g) none)).pushNode (.fresh key (some g) none)

/-- Makes `a` control `b`. -/
def control (r : Registry) (a b : NodeId) : Registry :=
  (r.reviseNode a fun x => { x with controls := x.controls.insert b }).reviseNode b
    fun x => { x with controlledBy := x.controlledBy.insert a }

/-- Makes `b` depend on the data of `a`. -/
def feed (r : Registry) (a b : NodeId) : Registry :=
  (r.reviseNode a fun x => { x with feeds := x.feeds.insert b }).reviseNode b
    fun x => { x with fedBy := x.fedBy.insert a }

/-! ## Liveness and the next places -/

theorem node?_nextNode (r : Registry) : r.node? r.nextNode = none :=
  Arena.get?_of_next_le (Nat.le_refl _)

theorem graph?_nextGraph (r : Registry) : r.graph? r.nextGraph = none :=
  Arena.get?_of_next_le (Nat.le_refl _)

theorem node?_eq_none_of_nextPair (h : n = r.nextPair.input ∨ n = r.nextPair.output) :
    r.node? n = none := by
  rcases h with rfl | rfl
  · exact Arena.get?_of_next_le (Nat.le_refl _)
  · exact Arena.get?_of_next_le (Nat.le_succ _)

/-- A live node is none of those to come. -/
theorem ne_nextNode {x : Node} (h : r.node? n = some x) : n ≠ r.nextNode := by
  intro hn
  rw [hn, node?_nextNode] at h
  cases h

theorem ne_nextPair {x : Node} (h : r.node? n = some x) :
    ¬ (n = r.nextPair.input ∨ n = r.nextPair.output) := by
  intro hn
  rw [node?_eq_none_of_nextPair hn] at h
  cases h

theorem ne_nextGraph {y : Graph} (h : r.graph? g = some y) : g ≠ r.nextGraph := by
  intro hg
  rw [hg, graph?_nextGraph] at h
  cases h

theorem nextPair_ne (r : Registry) : r.nextPair.input ≠ r.nextPair.output := by
  simp [nextPair]

/-- Registries with the same view are equal. -/
theorem ext_view (hn : ∀ n, r.node? n = s.node? n) (hg : ∀ g, r.graph? g = s.graph? g)
    (hnn : r.nextNode = s.nextNode) (hng : r.nextGraph = s.nextGraph) (hp : r.pool = s.pool)
    (hga : r.gathered = s.gathered) (hf : r.byFunction = s.byFunction) : r = s := by
  obtain ⟨graphs, byFunction, nodes, pool, gathered⟩ := r
  obtain ⟨graphs', byFunction', nodes', pool', gathered'⟩ := s
  have hnodes : nodes = nodes' :=
    Arena.ext_get? (congrArg NodeId.index hnn) fun i => hn ⟨i⟩
  have hgraphs : graphs = graphs' :=
    Arena.ext_get? (congrArg GraphId.index hng) fun i => hg ⟨i⟩
  simp only at hp hga hf
  rw [hnodes, hgraphs, hp, hga, hf]

theorem mem_liveGraphs {y : Graph} : (g, y) ∈ r.liveGraphs ↔ r.graph? g = some y := by
  unfold liveGraphs graph?
  rw [List.mem_map]
  constructor
  · intro h
    obtain ⟨⟨i, z⟩, hz, he⟩ := h
    cases he
    exact Arena.mem_live.1 hz
  · intro h
    exact ⟨(g.index, y), Arena.mem_live.2 h, rfl⟩

/-! ## New nodes and graphs -/

@[simp] theorem node?_pushNode (r : Registry) (x : Node) (n : NodeId) :
    (r.pushNode x).node? n = if n = r.nextNode then some x else r.node? n := by
  obtain ⟨i⟩ := n
  simp [pushNode, node?, nextNode, Arena.get?_push]

/-- The first of two new nodes is the input of a pair, the second the output. -/
theorem nextNode_pushNode (r : Registry) (x : Node) :
    (r.pushNode x).nextNode = r.nextPair.output := by
  simp [nextNode, nextPair, pushNode]

@[simp] theorem graph?_pushNode (r : Registry) (x : Node) (g : GraphId) :
    (r.pushNode x).graph? g = r.graph? g := rfl

@[simp] theorem node?_pushGraph (r : Registry) (y : Graph) (n : NodeId) :
    (r.pushGraph y).node? n = r.node? n := rfl

@[simp] theorem graph?_pushGraph (r : Registry) (y : Graph) (g : GraphId) :
    (r.pushGraph y).graph? g = if g = r.nextGraph then some y else r.graph? g := by
  obtain ⟨i⟩ := g
  simp [pushGraph, graph?, nextGraph, Arena.get?_push]

@[simp] theorem node?_pushPair (r : Registry) (g : GraphId) (key : NodeKey) (n : NodeId) :
    (r.pushPair g key).node? n = if n = r.nextPair.input ∨ n = r.nextPair.output
      then some (.fresh key (some g) none) else r.node? n := by
  rw [pushPair, node?_pushNode, node?_pushNode, nextNode_pushNode]
  have hi : r.nextNode = r.nextPair.input := rfl
  rw [hi]
  by_cases h1 : n = r.nextPair.input <;> by_cases h2 : n = r.nextPair.output <;> simp [h1, h2]

@[simp] theorem graph?_pushPair (r : Registry) (g : GraphId) (key : NodeKey) (h : GraphId) :
    (r.pushPair g key).graph? h = r.graph? h := rfl

/-! ## Revised nodes and graphs -/

@[simp] theorem node?_reviseNode (r : Registry) (n : NodeId) (f : Node → Node) (k : NodeId) :
    (r.reviseNode n f).node? k = if k = n then (r.node? k).map f else r.node? k := by
  unfold reviseNode
  cases hx : r.node? n with
  | none =>
    by_cases hk : k = n
    · subst hk; simp [hx]
    · simp [hk]
  | some x =>
    obtain ⟨i⟩ := n
    obtain ⟨j⟩ := k
    simp only [node?] at hx ⊢
    -- a cell was written, which is read back at its own index alone
    rw [Arena.get?_set]
    by_cases hk : i = j
    · subst hk; simp [hx]
    · simp [hk, Ne.symm hk]

/-- A node that is live after a revision was live before. -/
theorem exists_node_of_reviseNode {f : Node → Node} {k : NodeId} {x : Node}
    (h : (r.reviseNode n f).node? k = some x) : ∃ y, r.node? k = some y := by
  rw [node?_reviseNode] at h
  split at h
  · obtain ⟨y, hy, _⟩ := Option.map_eq_some_iff.1 h
    exact ⟨y, hy⟩
  · exact ⟨x, h⟩

@[simp] theorem graph?_reviseNode (r : Registry) (n : NodeId) (f : Node → Node) (g : GraphId) :
    (r.reviseNode n f).graph? g = r.graph? g := by
  unfold reviseNode
  split <;> rfl

@[simp] theorem graph?_reviseGraph (r : Registry) (g : GraphId) (f : Graph → Graph) (h : GraphId) :
    (r.reviseGraph g f).graph? h = if h = g then (r.graph? h).map f else r.graph? h := by
  unfold reviseGraph
  cases hy : r.graph? g with
  | none =>
    by_cases hh : h = g
    · subst hh; simp [hy]
    · simp [hh]
  | some y =>
    obtain ⟨i⟩ := g
    obtain ⟨j⟩ := h
    simp only [graph?] at hy ⊢
    -- as for nodes
    rw [Arena.get?_set]
    by_cases hh : i = j
    · subst hh; simp [hy]
    · simp [hh, Ne.symm hh]

@[simp] theorem node?_reviseGraph (r : Registry) (g : GraphId) (f : Graph → Graph) (n : NodeId) :
    (r.reviseGraph g f).node? n = r.node? n := by
  unfold reviseGraph
  split <;> rfl

@[simp] theorem nextNode_reviseNode (r : Registry) (n : NodeId) (f : Node → Node) :
    (r.reviseNode n f).nextNode = r.nextNode := by
  unfold reviseNode
  split <;> simp [nextNode]

@[simp] theorem nextGraph_reviseNode (r : Registry) (n : NodeId) (f : Node → Node) :
    (r.reviseNode n f).nextGraph = r.nextGraph := by
  unfold reviseNode
  split <;> rfl

@[simp] theorem nextNode_reviseGraph (r : Registry) (g : GraphId) (f : Graph → Graph) :
    (r.reviseGraph g f).nextNode = r.nextNode := by
  unfold reviseGraph
  split <;> rfl

@[simp] theorem nextGraph_reviseGraph (r : Registry) (g : GraphId) (f : Graph → Graph) :
    (r.reviseGraph g f).nextGraph = r.nextGraph := by
  unfold reviseGraph
  split <;> simp [nextGraph]

@[simp] theorem pool_reviseNode (r : Registry) (n : NodeId) (f : Node → Node) :
    (r.reviseNode n f).pool = r.pool := by
  unfold reviseNode
  split <;> rfl

@[simp] theorem pool_reviseGraph (r : Registry) (g : GraphId) (f : Graph → Graph) :
    (r.reviseGraph g f).pool = r.pool := by
  unfold reviseGraph
  split <;> rfl

@[simp] theorem gathered_reviseNode (r : Registry) (n : NodeId) (f : Node → Node) :
    (r.reviseNode n f).gathered = r.gathered := by
  unfold reviseNode
  split <;> rfl

@[simp] theorem gathered_reviseGraph (r : Registry) (g : GraphId) (f : Graph → Graph) :
    (r.reviseGraph g f).gathered = r.gathered := by
  unfold reviseGraph
  split <;> rfl

@[simp] theorem byFunction_reviseNode (r : Registry) (n : NodeId) (f : Node → Node) :
    (r.reviseNode n f).byFunction = r.byFunction := by
  unfold reviseNode
  split <;> rfl

@[simp] theorem byFunction_reviseGraph (r : Registry) (g : GraphId) (f : Graph → Graph) :
    (r.reviseGraph g f).byFunction = r.byFunction := by
  unfold reviseGraph
  split <;> rfl

/-! ## New edges -/

theorem node?_control (r : Registry) (a b n : NodeId) :
    (r.control a b).node? n = (r.node? n).map fun x => { x with
      controls := if n = a then x.controls.insert b else x.controls
      controlledBy := if n = b then x.controlledBy.insert a else x.controlledBy } := by
  unfold control
  -- the node may be either end, or both if it controls itself
  cases hx : r.node? n <;> by_cases ha : n = a <;> by_cases hb : n = b <;> simp_all

@[simp] theorem graph?_control (r : Registry) (a b : NodeId) (g : GraphId) :
    (r.control a b).graph? g = r.graph? g := by
  simp [control]

@[simp] theorem byFunction_control (r : Registry) (a b : NodeId) :
    (r.control a b).byFunction = r.byFunction := by
  simp [control]

theorem node?_feed (r : Registry) (a b n : NodeId) :
    (r.feed a b).node? n = (r.node? n).map fun x => { x with
      feeds := if n = a then x.feeds.insert b else x.feeds
      fedBy := if n = b then x.fedBy.insert a else x.fedBy } := by
  unfold feed
  cases hx : r.node? n <;> by_cases ha : n = a <;> by_cases hb : n = b <;> simp_all

@[simp] theorem graph?_feed (r : Registry) (a b : NodeId) (g : GraphId) :
    (r.feed a b).graph? g = r.graph? g := by
  simp [feed]

@[simp] theorem byFunction_feed (r : Registry) (a b : NodeId) :
    (r.feed a b).byFunction = r.byFunction := by
  simp [feed]

end Registry

end Sdg
