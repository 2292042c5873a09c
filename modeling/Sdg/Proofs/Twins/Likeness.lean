import Sdg.Proofs.Registry.Ages
import Sdg.Proofs.Teardown.Freeing
import Sdg.Proofs.Twins.Naming

/-!
# Likenesses

Two registries may be alike in more than one way: they always differ in names, but which names
correspond, and what else they have in common, is another matter. What all work rests on is little.
In registries that are alike the same is found, what is new corresponds, and what is replaced or
freed in both leaves them alike. Whatever keeps that is a likeness.
-/

namespace Sdg

open Relator

/-! ## Replaced nodes and graphs -/

namespace Registry

theorem node?_setNode (r : Registry) (n : NodeId) (x : Node) (k : NodeId) :
    ({ r with nodes := r.nodes.set n.index x } : Registry).node? k =
      if k = n then (r.node? n).map fun _ => x else r.node? k := by
  obtain ⟨i⟩ := n
  obtain ⟨j⟩ := k
  simp only [node?, Arena.get?_set, NodeId.mk.injEq]
  by_cases h : j = i
  · rw [if_pos h, if_pos h.symm, h]
  · rw [if_neg h, if_neg (Ne.symm h)]

theorem graph?_setGraph (r : Registry) (g : GraphId) (y : Graph) (k : GraphId) :
    ({ r with graphs := r.graphs.set g.index y } : Registry).graph? k =
      if k = g then (r.graph? g).map fun _ => y else r.graph? k := by
  obtain ⟨i⟩ := g
  obtain ⟨j⟩ := k
  simp only [graph?, Arena.get?_set, GraphId.mk.injEq]
  by_cases h : j = i
  · rw [if_pos h, if_pos h.symm, h]
  · rw [if_neg h, if_neg (Ne.symm h)]

/-- What a node loses when another one is freed corresponds. -/
theorem withoutNeighbour_like {ν : Naming} {n n' : NodeId} {x x' z z' : Node} {k k' : NodeId}
    (hn : ν.Node n n') (hx : x.Like ν x') (hk : ν.Node k k') (hz : z.Like ν z') :
    (withoutNeighbour n x k z).Like ν (withoutNeighbour n' x' k' z') :=
  { hz with
    controls := .ite (hx.controlledBy.mem_iff ν.biUnique_node hk)
      (hz.controls.erase ν.biUnique_node hn) hz.controls
    controlledBy := .ite (hx.controls.mem_iff ν.biUnique_node hk)
      (hz.controlledBy.erase ν.biUnique_node hn) hz.controlledBy
    feeds := .ite (hx.fedBy.mem_iff ν.biUnique_node hk)
      (hz.feeds.erase ν.biUnique_node hn) hz.feeds
    fedBy := .ite (hx.feeds.mem_iff ν.biUnique_node hk)
      (hz.fedBy.erase ν.biUnique_node hn) hz.fedBy }

/-- What is found alike is found alike after graphs that correspond were entered. -/
theorem lookup?_pushGraph_like {ν : Naming} {r s : Registry} {y y' : Graph}
    (h : ∀ f, Option.Rel ν.Graph (r.lookup? f) (s.lookup? f)) (hy : y'.function = y.function)
    (hg : ν.Graph r.nextGraph s.nextGraph) (f : FunctionId) :
    Option.Rel ν.Graph ((r.pushGraph y).lookup? f) ((s.pushGraph y').lookup? f) := by
  rw [lookup?_pushGraph, lookup?_pushGraph, hy]
  exact optionRel_ite .rfl (.some hg) fun _ => h f

/-- Or after they were struck out. -/
theorem lookup?_removeGraph_like {ν : Naming} {r s : Registry} {g g' : GraphId}
    (h : ∀ f, Option.Rel ν.Graph (r.lookup? f) (s.lookup? f)) (hg : ν.Graph g g')
    (f k : FunctionId) :
    Option.Rel ν.Graph ((r.removeGraph f g).lookup? k) ((s.removeGraph f g').lookup? k) := by
  rw [lookup?_removeGraph, lookup?_removeGraph]
  -- a graph is entered under the function in both, or in neither
  have hiff : r.lookup? f = some g ↔ s.lookup? f = some g' := by
    have hf := h f
    generalize r.lookup? f = o at hf
    generalize s.lookup? f = o' at hf
    cases hf with
    | none => exact iff_of_false nofun nofun
    | some hi =>
      rw [Option.some.injEq, Option.some.injEq]
      exact rel_eq ν.biUnique_graph hi hg
  exact optionRel_ite (and_congr_right fun _ => hiff) .none fun _ => h k

end Registry

/-! ## Likenesses -/

/-- A relation between registries, some of whose names correspond, that is kept by all that work
does. -/
structure Likeness extends Naming where
  Holds : Registry → Registry → Prop
  node {r s : Registry} {n n' : NodeId} : Holds r s → Node n n' →
    Option.Rel (Sdg.Node.Like toNaming) (r.node? n) (s.node? n')
  graph {r s : Registry} {g g' : GraphId} : Holds r s → Graph g g' →
    Option.Rel (Sdg.Graph.Like toNaming) (r.graph? g) (s.graph? g')
  lookup? {r s : Registry} (f : FunctionId) : Holds r s →
    Option.Rel Graph (r.lookup? f) (s.lookup? f)
  nextNode {r s : Registry} : Holds r s → Node r.nextNode s.nextNode
  nextGraph {r s : Registry} : Holds r s → Graph r.nextGraph s.nextGraph
  pushNode {r s : Registry} {x x' : Sdg.Node} : Holds r s → x.Like toNaming x' →
    Holds (r.pushNode x) (s.pushNode x')
  pushGraph {r s : Registry} {y y' : Sdg.Graph} : Holds r s → y.Like toNaming y' →
    Holds (r.pushGraph y) (s.pushGraph y')
  setNode {r s : Registry} {n n' : NodeId} {x x' : Sdg.Node} : Holds r s → Node n n' →
    x.Like toNaming x' →
    Holds { r with nodes := r.nodes.set n.index x } { s with nodes := s.nodes.set n'.index x' }
  setGraph {r s : Registry} {g g' : GraphId} {y y' : Sdg.Graph} : Holds r s → Graph g g' →
    y.Like toNaming y' →
    Holds { r with graphs := r.graphs.set g.index y } { s with graphs := s.graphs.set g'.index y' }
  freeNode {r s : Registry} {n n' : NodeId} : Holds r s → Node n n' →
    Holds (r.freeNode n) (s.freeNode n')
  removeGraph {r s : Registry} {g g' : GraphId} (f : FunctionId) : Holds r s → Graph g g' →
    Holds (r.removeGraph f g) (s.removeGraph f g')
  gather {r s : Registry} {c c' : NodeId} : Holds r s → Node c c' →
    Holds { r with gathered := r.gathered.insert c } { s with gathered := s.gathered.insert c' }

namespace Likeness

instance : CoeOut Likeness Naming := ⟨toNaming⟩

variable {ρ : Likeness} {r s : Registry} {n n' : NodeId} {g g' : GraphId}

theorem reviseNode (h : ρ.Holds r s) (hn : ρ.Node n n') {f f' : Node → Node}
    (hf : ∀ x x', x.Like ρ x' → (f x).Like ρ (f' x')) :
    ρ.Holds (r.reviseNode n f) (s.reviseNode n' f') := by
  unfold Registry.reviseNode
  have hx := ρ.node h hn
  generalize r.node? n = o at hx
  generalize s.node? n' = o' at hx
  cases hx with
  | none => exact h
  | some hx => exact ρ.setNode h hn (hf _ _ hx)

theorem reviseGraph (h : ρ.Holds r s) (hg : ρ.Graph g g') {f f' : Graph → Graph}
    (hf : ∀ y y', y.Like ρ y' → (f y).Like ρ (f' y')) :
    ρ.Holds (r.reviseGraph g f) (s.reviseGraph g' f') := by
  unfold Registry.reviseGraph
  have hy := ρ.graph h hg
  generalize r.graph? g = o at hy
  generalize s.graph? g' = o' at hy
  cases hy with
  | none => exact h
  | some hy => exact ρ.setGraph h hg (hf _ _ hy)

end Likeness

end Sdg
