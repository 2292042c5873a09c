import Sdg.Proofs.Twins.Naming

/-!
# What corresponds in twins

Two registries may differ in the numbers of their graphs and nodes alone, and in that by one
constant for graphs and one for nodes. What they have in common are the shared nodes, which keep
their numbers and which no graph and no other node names. This module says what corresponds then:
ids, parameters, nodes, units, graphs and faults.
-/

namespace Sdg

open Relator

/-! ## Ids -/

/-- How the ids of two registries correspond: the registry with the shared nodes that they have in
common, and by how much the numbers of other nodes and those of graphs are moved. -/
structure Shift where
  common : Registry
  nodes : Nat
  graphs : Nat

namespace Shift

variable {ρ : Shift}

/-- The node `n`, which is not shared, is called `n'` in the second registry. -/
def Node (ρ : Shift) (n n' : NodeId) : Prop :=
  ρ.common.nodes.next ≤ n.index ∧ n'.index = n.index + ρ.nodes

/-- The graph `g` is called `g'` in the second registry. -/
def Graph (ρ : Shift) (g g' : GraphId) : Prop := g'.index = g.index + ρ.graphs

/-- A shared node corresponds to none, and none corresponds to it. -/
theorem Node.ne_shared {k n n' : NodeId} (hn : ρ.Node n n')
    (hk : k.index < ρ.common.nodes.next) : k ≠ n ∧ k ≠ n' := by
  obtain ⟨hle, he⟩ := hn
  constructor
  · rintro rfl
    omega
  · rintro rfl
    omega

theorem biUnique_node (ρ : Shift) : BiUnique ρ.Node := by
  constructor
  · rintro ⟨a⟩ ⟨b⟩ ⟨c⟩ ⟨_, hb⟩ ⟨_, hc⟩
    simp only at hb hc
    exact congrArg NodeId.mk (by omega)
  · rintro ⟨a⟩ ⟨b⟩ ⟨c⟩ ⟨_, hb⟩ ⟨_, hc⟩
    simp only at hb hc
    exact congrArg NodeId.mk (by omega)

theorem biUnique_graph (ρ : Shift) : BiUnique ρ.Graph := by
  constructor
  · rintro ⟨a⟩ ⟨b⟩ ⟨c⟩ hb hc
    simp only [Graph] at hb hc
    exact congrArg GraphId.mk (by omega)
  · rintro ⟨a⟩ ⟨b⟩ ⟨c⟩ hb hc
    simp only [Graph] at hb hc
    exact congrArg GraphId.mk (by omega)

/-- The naming that moves numbers. -/
def naming (ρ : Shift) : Naming := ⟨ρ.Node, ρ.Graph, ρ.biUnique_node, ρ.biUnique_graph⟩

instance : CoeOut Shift Naming := ⟨naming⟩

end Shift

/-! ## Parameters -/

structure ParameterPair.Twin (ρ : Shift) (q q' : ParameterPair) : Prop where
  input : ρ.Node q.input q'.input
  output : ρ.Node q.output q'.output

structure Parameters.Twin (ρ : Shift) (p p' : Parameters) : Prop where
  own : p.own.Rel (ParameterPair.Twin ρ) p'.own
  globals : p.globals.Rel (ParameterPair.Twin ρ) p'.globals
  variadic? : Option.Rel (ParameterPair.Twin ρ) p.variadic? p'.variadic?

/-! ## Nodes, units and graphs -/

structure Node.Twin (ρ : Shift) (x x' : Node) : Prop where
  key : x'.key = x.key
  graph? : Option.Rel ρ.Graph x.graph? x'.graph?
  block? : x'.block? = x.block?
  controls : x.controls.Rel ρ.Node x'.controls
  controlledBy : x.controlledBy.Rel ρ.Node x'.controlledBy
  feeds : x.feeds.Rel ρ.Node x'.feeds
  fedBy : x.fedBy.Rel ρ.Node x'.fedBy
  callees : x.callees.Rel ρ.Graph x'.callees
  actuals? : Option.Rel (Parameters.Twin ρ) x.actuals? x'.actuals?

structure BlockUnit.Twin (ρ : Shift) (u u' : BlockUnit) : Prop where
  key : u'.key = u.key
  nodes : List.Forall₂ ρ.Node u.nodes u'.nodes
  successors : u'.successors = u.successors
  predecessors : u'.predecessors = u.predecessors
  callSites : u.callSites.Rel ρ.Node u'.callSites
  controls : u'.controls = u.controls
  controlledBy : u'.controlledBy = u.controlledBy

structure Graph.Twin (ρ : Shift) (y y' : Graph) : Prop where
  function : y'.function = y.function
  phase : y'.phase = y.phase
  refcount : y'.refcount = y.refcount
  entryNode? : Option.Rel ρ.Node y.entryNode? y'.entryNode?
  exitNode? : Option.Rel ρ.Node y.exitNode? y'.exitNode?
  entryBlock? : y'.entryBlock? = y.entryBlock?
  units : y.units.Rel (BlockUnit.Twin ρ) y'.units
  exitUnit? : Option.Rel (BlockUnit.Twin ρ) y.exitUnit? y'.exitUnit?
  index : y.index.Rel ρ.Node y'.index
  formals : y.formals.Twin ρ y'.formals
  callNodes : y.callNodes.Rel ρ.Node y'.callNodes
  callers : y.callers.Rel ρ.Node y'.callers

/-! ## Faults -/

/-- The same fault, but for the numbers of the nodes and graphs that it names. -/
inductive Fault.Twin (ρ : Shift) : Fault → Fault → Prop where
  | same {f : Fault} : f.IsImpersonal → Twin ρ f f
  | graphGone {g g' : GraphId} : ρ.Graph g g' → Twin ρ (.graphGone g) (.graphGone g')
  | nodeGone {n n' : NodeId} : ρ.Node n n' → Twin ρ (.nodeGone n) (.nodeGone n')
  | unheld {g g' : GraphId} : ρ.Graph g g' → Twin ρ (.unheld g) (.unheld g')
  | duplicate {key : NodeKey} {g g' : GraphId} : ρ.Graph g g' →
      Twin ρ (.duplicate key g) (.duplicate key g')
  | foreignIncoming {b : BlockId} {n n' : NodeId} : ρ.Node n n' →
      Twin ρ (.foreignIncoming b n) (.foreignIncoming b n')
  | noEntry {g g' : GraphId} : ρ.Graph g g' → Twin ρ (.noEntry g) (.noEntry g')
  | notCall {n n' : NodeId} : ρ.Node n n' → Twin ρ (.notCall n) (.notCall n')
  | ownerless {n n' : NodeId} : ρ.Node n n' → Twin ρ (.ownerless n) (.ownerless n')
  | owned {key : NodeKey} {g g' h h' : GraphId} : ρ.Graph g g' → ρ.Graph h h' →
      Twin ρ (.owned key g h) (.owned key g' h')

/-! ## What is alike -/

section

variable {ρ : Shift}

theorem ParameterPair.like_eq : ParameterPair.Like ρ = ParameterPair.Twin ρ := by
  funext q q'
  rw [eq_iff_iff]
  exact ⟨fun h => ⟨h.input, h.output⟩, fun h => ⟨h.input, h.output⟩⟩

theorem Parameters.like_eq : Parameters.Like ρ = Parameters.Twin ρ := by
  funext p p'
  rw [eq_iff_iff]
  constructor
  · rintro ⟨own, globals, variadic⟩
    rw [ParameterPair.like_eq] at own globals variadic
    exact ⟨own, globals, variadic⟩
  · rintro ⟨own, globals, variadic⟩
    rw [← ParameterPair.like_eq] at own globals variadic
    exact ⟨own, globals, variadic⟩

theorem Node.like_eq : Node.Like ρ = Node.Twin ρ := by
  funext x x'
  rw [eq_iff_iff]
  constructor
  · rintro ⟨key, graph, block, controls, controlledBy, feeds, fedBy, callees, actuals⟩
    rw [Parameters.like_eq] at actuals
    exact ⟨key, graph, block, controls, controlledBy, feeds, fedBy, callees, actuals⟩
  · rintro ⟨key, graph, block, controls, controlledBy, feeds, fedBy, callees, actuals⟩
    rw [← Parameters.like_eq] at actuals
    exact ⟨key, graph, block, controls, controlledBy, feeds, fedBy, callees, actuals⟩

theorem BlockUnit.like_eq : BlockUnit.Like ρ = BlockUnit.Twin ρ := by
  funext u u'
  rw [eq_iff_iff]
  constructor
  · rintro ⟨key, nodes, successors, predecessors, callSites, controls, controlledBy⟩
    exact ⟨key, nodes, successors, predecessors, callSites, controls, controlledBy⟩
  · rintro ⟨key, nodes, successors, predecessors, callSites, controls, controlledBy⟩
    exact ⟨key, nodes, successors, predecessors, callSites, controls, controlledBy⟩

theorem Graph.like_eq : Graph.Like ρ = Graph.Twin ρ := by
  funext y y'
  rw [eq_iff_iff]
  constructor
  · rintro ⟨function, phase, count, entry, exit, start, units, last, index, formals, calls, callers⟩
    rw [BlockUnit.like_eq] at units last
    rw [Parameters.like_eq] at formals
    exact ⟨function, phase, count, entry, exit, start, units, last, index, formals, calls, callers⟩
  · rintro ⟨function, phase, count, entry, exit, start, units, last, index, formals, calls, callers⟩
    rw [← BlockUnit.like_eq] at units last
    rw [← Parameters.like_eq] at formals
    exact ⟨function, phase, count, entry, exit, start, units, last, index, formals, calls, callers⟩

theorem Fault.Like.twin {f f' : Fault} (h : f.Like ρ f') : f.Twin ρ f' := by
  cases h with
  | same hf => exact .same hf
  | graphGone hg => exact .graphGone hg
  | nodeGone hn => exact .nodeGone hn
  | unheld hg => exact .unheld hg
  | duplicate hg => exact .duplicate hg
  | foreignIncoming hn => exact .foreignIncoming hn
  | noEntry hg => exact .noEntry hg
  | notCall hn => exact .notCall hn
  | ownerless hn => exact .ownerless hn
  | owned hg hh => exact .owned hg hh

end

end Sdg
