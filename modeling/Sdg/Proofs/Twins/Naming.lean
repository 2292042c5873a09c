import Sdg.Build.Fault
import Sdg.Graph.Registry
import Sdg.Proofs.Related

/-!
# Namings

Two registries may name their nodes and graphs differently. A naming says which names correspond,
and with it parameters, nodes, units, graphs and faults are alike: they differ in the names alone.
-/

namespace Sdg

open Relator

/-- How the ids of two registries correspond. -/
structure Naming where
  Node : NodeId → NodeId → Prop
  Graph : GraphId → GraphId → Prop
  biUnique_node : BiUnique Node
  biUnique_graph : BiUnique Graph

/-! ## Parameters -/

section

variable {ν : Naming}

structure ParameterPair.Like (ν : Naming) (q q' : ParameterPair) : Prop where
  input : ν.Node q.input q'.input
  output : ν.Node q.output q'.output

structure Parameters.Like (ν : Naming) (p p' : Parameters) : Prop where
  own : p.own.Rel (ParameterPair.Like ν) p'.own
  globals : p.globals.Rel (ParameterPair.Like ν) p'.globals
  variadic? : Option.Rel (ParameterPair.Like ν) p.variadic? p'.variadic?

namespace Parameters.Like

variable {p p' : Parameters} {q q' : ParameterPair}

theorem empty : (empty : Parameters).Like ν Parameters.empty := ⟨.empty, .empty, .none⟩

theorem getD {o o' : Option Parameters} (h : Option.Rel (Parameters.Like ν) o o') :
    (o.getD .empty).Like ν (o'.getD .empty) := by
  cases h with
  | none => exact .empty
  | some h => exact h

theorem find? (h : p.Like ν p') (v : ValueId) :
    Option.Rel (ParameterPair.Like ν) (p.find? v) (p'.find? v) :=
  optionRel_or (h.own.get? v) (h.globals.get? v)

theorem contains_eq (h : p.Like ν p') (v : ValueId) : p.contains v = p'.contains v := by
  rw [contains, contains, h.own.contains_eq, h.globals.contains_eq]

theorem addOwn (h : p.Like ν p') (hq : q.Like ν q') (v : ValueId) :
    (p.addOwn v q).Like ν (p'.addOwn v q') := by
  rw [Parameters.addOwn, Parameters.addOwn, h.contains_eq]
  split
  · exact h
  · exact ⟨h.own.insert hq, h.globals, h.variadic?⟩

theorem addGlobal (h : p.Like ν p') (hq : q.Like ν q') (v : ValueId) :
    (p.addGlobal v q).Like ν (p'.addGlobal v q') := by
  rw [Parameters.addGlobal, Parameters.addGlobal, h.contains_eq]
  split
  · exact h
  · exact ⟨h.own, h.globals.insert hq, h.variadic?⟩

theorem setVariadic? (h : p.Like ν p') (hq : q.Like ν q') :
    Option.Rel (Parameters.Like ν) (p.setVariadic? q) (p'.setVariadic? q') := by
  rw [Parameters.setVariadic?, Parameters.setVariadic?, ← Option.not_isSome, ← Option.not_isSome,
    optionRel_isSome h.variadic?]
  split
  · exact .some ⟨h.own, h.globals, .some hq⟩
  · exact .none

theorem nodes (h : p.Like ν p') : List.Forall₂ ν.Node p.nodes p'.nodes := by
  have hpairs : List.Forall₂ (ParameterPair.Like ν) p.pairs p'.pairs :=
    List.rel_append (List.rel_append h.own.values h.globals.values) (forall₂_toList h.variadic?)
  exact List.rel_flatMap hpairs fun _ _ hq => .cons hq.input (.cons hq.output .nil)

end Parameters.Like

end

/-! ## Nodes, units and graphs -/

structure Node.Like (ν : Naming) (x x' : Node) : Prop where
  key : x'.key = x.key
  graph? : Option.Rel ν.Graph x.graph? x'.graph?
  block? : x'.block? = x.block?
  controls : x.controls.Rel ν.Node x'.controls
  controlledBy : x.controlledBy.Rel ν.Node x'.controlledBy
  feeds : x.feeds.Rel ν.Node x'.feeds
  fedBy : x.fedBy.Rel ν.Node x'.fedBy
  callees : x.callees.Rel ν.Graph x'.callees
  actuals? : Option.Rel (Parameters.Like ν) x.actuals? x'.actuals?

structure BlockUnit.Like (ν : Naming) (u u' : BlockUnit) : Prop where
  key : u'.key = u.key
  nodes : List.Forall₂ ν.Node u.nodes u'.nodes
  successors : u'.successors = u.successors
  predecessors : u'.predecessors = u.predecessors
  callSites : u.callSites.Rel ν.Node u'.callSites
  controls : u'.controls = u.controls
  controlledBy : u'.controlledBy = u.controlledBy

structure Graph.Like (ν : Naming) (y y' : Graph) : Prop where
  function : y'.function = y.function
  phase : y'.phase = y.phase
  refcount : y'.refcount = y.refcount
  entryNode? : Option.Rel ν.Node y.entryNode? y'.entryNode?
  exitNode? : Option.Rel ν.Node y.exitNode? y'.exitNode?
  entryBlock? : y'.entryBlock? = y.entryBlock?
  units : y.units.Rel (BlockUnit.Like ν) y'.units
  exitUnit? : Option.Rel (BlockUnit.Like ν) y.exitUnit? y'.exitUnit?
  index : y.index.Rel ν.Node y'.index
  formals : y.formals.Like ν y'.formals
  callNodes : y.callNodes.Rel ν.Node y'.callNodes
  callers : y.callers.Rel ν.Node y'.callers

section

variable {ν : Naming} {g g' : GraphId}

theorem Node.Like.fresh (hg : ν.Graph g g') (key : NodeKey) (block? : Option BlockKey) :
    (Node.fresh key (some g) block?).Like ν (.fresh key (some g') block?) :=
  ⟨rfl, .some hg, rfl, .empty, .empty, .empty, .empty, .empty, .none⟩

theorem BlockUnit.Like.fresh (key : BlockKey) : (BlockUnit.fresh key).Like ν (.fresh key) :=
  ⟨rfl, .nil, rfl, rfl, .empty, rfl, rfl⟩

namespace Graph.Like

variable {y y' : Graph} {f f' : BlockUnit → BlockUnit}

theorem fresh (f : FunctionId) : (Graph.fresh f).Like ν (.fresh f) :=
  ⟨rfl, rfl, rfl, .none, .none, rfl, .empty, .none, .empty, .empty, .empty, .empty⟩

theorem unit? (h : y.Like ν y') (k : BlockKey) :
    Option.Rel (BlockUnit.Like ν) (y.unit? k) (y'.unit? k) := by
  cases k with
  | block b => exact h.units.get? b
  | exit => exact h.exitUnit?

theorem entryUnit? (h : y.Like ν y') :
    Option.Rel (BlockUnit.Like ν) y.entryUnit? y'.entryUnit? := by
  rw [Graph.entryUnit?, Graph.entryUnit?, h.entryBlock?]
  cases y.entryBlock? with
  | none => exact .none
  | some b => exact h.units.get? b

theorem modifyUnit (h : y.Like ν y') (hf : ∀ u u', u.Like ν u' → (f u).Like ν (f' u'))
    (k : BlockKey) : (y.modifyUnit k f).Like ν (y'.modifyUnit k f') := by
  cases k with
  | block b => exact { h with units := h.units.modify hf }
  | exit => exact { h with exitUnit? := optionRel_map h.exitUnit? hf }

end Graph.Like

end

/-! ## Faults -/

/-- Whether a fault names no node and no graph. -/
def Fault.IsImpersonal : Fault → Prop
  | .graphGone _ | .nodeGone _ | .unheld _ | .duplicate _ _ | .foreignIncoming _ _ | .noEntry _
  | .notCall _ | .ownerless _ | .owned _ _ _ => False
  | _ => True

/-- The same fault, but for the numbers of the nodes and graphs that it names. -/
inductive Fault.Like (ν : Naming) : Fault → Fault → Prop where
  | same {f : Fault} : f.IsImpersonal → Like ν f f
  | graphGone {g g' : GraphId} : ν.Graph g g' → Like ν (.graphGone g) (.graphGone g')
  | nodeGone {n n' : NodeId} : ν.Node n n' → Like ν (.nodeGone n) (.nodeGone n')
  | unheld {g g' : GraphId} : ν.Graph g g' → Like ν (.unheld g) (.unheld g')
  | duplicate {key : NodeKey} {g g' : GraphId} : ν.Graph g g' →
      Like ν (.duplicate key g) (.duplicate key g')
  | foreignIncoming {b : BlockId} {n n' : NodeId} : ν.Node n n' →
      Like ν (.foreignIncoming b n) (.foreignIncoming b n')
  | noEntry {g g' : GraphId} : ν.Graph g g' → Like ν (.noEntry g) (.noEntry g')
  | notCall {n n' : NodeId} : ν.Node n n' → Like ν (.notCall n) (.notCall n')
  | ownerless {n n' : NodeId} : ν.Node n n' → Like ν (.ownerless n) (.ownerless n')
  | owned {key : NodeKey} {g g' h h' : GraphId} : ν.Graph g g' → ν.Graph h h' →
      Like ν (.owned key g h) (.owned key g' h')

end Sdg
