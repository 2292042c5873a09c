import Mathlib.Logic.Relation
import Sdg.Proofs.Registry.Roster

/-!
# How a registry ages

Whatever is done to a registry, it is done in ticks: a node is added, the graph of a function is
registered that has none, a graph is removed, or what is there is changed without changing what it
is. A tick hands out one name at most, and that is the next one. So names are handed out in
increasing order, and what is gone does not come back.

Main results:

* `Registry.Ages.next_le` — names are handed out in increasing order;
* `Registry.Ages.node`, `Registry.Ages.graph` — under a name that was handed out before there is the
  same as before, or nothing.
-/

namespace Sdg

/-- What a node is, which stays so for as long as it is live: its key, its owner and its place. -/
structure Node.Same (x y : Node) : Prop where
  key : y.key = x.key
  graph? : y.graph? = x.graph?
  block? : y.block? = x.block?

theorem Node.Same.refl (x : Node) : x.Same x := ⟨rfl, rfl, rfl⟩

theorem Node.Same.trans {x y z : Node} (h : x.Same y) (h' : y.Same z) : x.Same z :=
  ⟨h'.key.trans h.key, h'.graph?.trans h.graph?, h'.block?.trans h.block?⟩

namespace Registry

open Relation

/-- What is done to a registry at a time. -/
inductive Tick (r : Registry) : Registry → Prop
  | node (x : Node) : Tick r (r.pushNode x)
  /-- A graph is registered for a function that has none. -/
  | register {f : FunctionId} : r.lookup? f = none → Tick r (r.pushGraph (.fresh f))
  | remove (f : FunctionId) (g : GraphId) : Tick r (r.removeGraph f g)
  /-- No name is handed out, and what is live was so and is what it was. Nodes may be freed. -/
  | keep {s : Registry} : s.nextNode = r.nextNode → s.nextGraph = r.nextGraph →
      (∀ n x', s.node? n = some x' → ∃ x, r.node? n = some x ∧ x.Same x') →
      (∀ g, (s.graph? g).map Graph.function = (r.graph? g).map Graph.function) → Tick r s

/-- What becomes of a registry tick by tick. -/
abbrev Ages (r s : Registry) : Prop := ReflTransGen Tick r s

variable {r s t : Registry} {g h : GraphId} {n : NodeId} {f k : FunctionId} {x x' : Node}
  {y z : Graph}

/-! ## Names -/

/-- A tick hands out one name at most: that of the next node or that of the next graph. -/
theorem Tick.next (ht : Tick r s) :
    (s.nodes.next = r.nodes.next ∨ s.nodes.next = r.nodes.next + 1 ∧ s.graphs = r.graphs) ∧
    (s.graphs.next = r.graphs.next ∨ s.graphs.next = r.graphs.next + 1 ∧ s.nodes = r.nodes) := by
  cases ht with
  | node x => exact ⟨Or.inr ⟨Arena.next_push _ _, rfl⟩, Or.inl rfl⟩
  | register _ => exact ⟨Or.inl rfl, Or.inr ⟨Arena.next_push _ _, rfl⟩⟩
  | remove f g => exact ⟨Or.inl rfl, Or.inl (Arena.next_erase _ _)⟩
  | keep hn hg _ _ =>
    exact ⟨Or.inl (congrArg NodeId.index hn), Or.inl (congrArg GraphId.index hg)⟩

/-- After a tick a node is what it was, or it has the name that was the next. -/
theorem Tick.old_node (ht : Tick r s) (hx' : s.node? n = some x') :
    (∃ x, r.node? n = some x ∧ x.Same x') ∨ n = r.nextNode := by
  cases ht with
  | node x =>
    rw [node?_pushNode] at hx'
    split at hx'
    · exact Or.inr ‹_›
    · exact Or.inl ⟨x', hx', .refl x'⟩
  | register _ => exact Or.inl ⟨x', hx', .refl x'⟩
  | remove _ _ => exact Or.inl ⟨x', hx', .refl x'⟩
  | keep _ _ hnode _ => exact Or.inl (hnode n x' hx')

/-- So is a graph. -/
theorem Tick.old_graph (ht : Tick r s) (hz : s.graph? g = some z) :
    (∃ y, r.graph? g = some y ∧ z.function = y.function) ∨ g = r.nextGraph := by
  cases ht with
  | node _ => exact Or.inl ⟨z, hz, rfl⟩
  | register _ =>
    rw [graph?_pushGraph] at hz
    split at hz
    · exact Or.inr ‹_›
    · exact Or.inl ⟨z, hz, rfl⟩
  | remove _ k =>
    rw [graph?_removeGraph] at hz
    split at hz
    · cases hz
    · exact Or.inl ⟨z, hz, rfl⟩
  | keep _ _ _ hgraph =>
    have hfun := hgraph g
    rw [hz] at hfun
    obtain ⟨y, hy, hf⟩ := Option.map_eq_some_iff.1 hfun.symm
    exact Or.inl ⟨y, hy, hf.symm⟩

/-- Names are handed out in increasing order. -/
theorem Ages.next_le (ha : r.Ages s) :
    r.nodes.next ≤ s.nodes.next ∧ r.graphs.next ≤ s.graphs.next := by
  induction ha with
  | refl => exact ⟨Nat.le_refl _, Nat.le_refl _⟩
  | tail _ ht ih =>
    have hnext := ht.next
    omega

/-- Under a name that was handed out before there is the same node as before, or none. -/
theorem Ages.node (ha : r.Ages s) (hlt : n.index < r.nodes.next) (hx' : s.node? n = some x') :
    ∃ x, r.node? n = some x ∧ x.Same x' := by
  induction ha generalizing x' with
  | refl => exact ⟨x', hx', .refl x'⟩
  | @tail t u ha ht ih =>
    rcases ht.old_node hx' with ⟨x, hx, hsame⟩ | rfl
    · obtain ⟨w, hw, hsame'⟩ := ih hx
      exact ⟨w, hw, hsame'.trans hsame⟩
    · -- the next name was not handed out before
      have hle : r.nodes.next ≤ t.nodes.next := (Ages.next_le ha).1
      exact absurd hlt (Nat.not_lt.2 hle)

/-- Under a name that was handed out before there is a graph of the same function, or none. -/
theorem Ages.graph (ha : r.Ages s) (hlt : g.index < r.graphs.next) (hz : s.graph? g = some z) :
    ∃ y, r.graph? g = some y ∧ z.function = y.function := by
  induction ha generalizing z with
  | refl => exact ⟨z, hz, rfl⟩
  | @tail t u ha ht ih =>
    rcases ht.old_graph hz with ⟨y, hy, hf⟩ | rfl
    · obtain ⟨w, hw, hf'⟩ := ih hy
      exact ⟨w, hw, hf.trans hf'⟩
    · have hle : r.graphs.next ≤ t.graphs.next := (Ages.next_le ha).2
      exact absurd hlt (Nat.not_lt.2 hle)

/-- A node that is live has a name that was handed out. -/
theorem lt_of_node? (hx : r.node? n = some x) : n.index < r.nodes.next := Arena.lt_next_of_get? hx

theorem lt_of_graph? (hy : r.graph? g = some y) : g.index < r.graphs.next :=
  Arena.lt_next_of_get? hy

/-- A graph that comes and was not there before has a name that no graph had. -/
theorem Ages.le_of_fresh (ha : r.Ages s) (hn : r.graph? g = none) (hz : s.graph? g = some z) :
    r.graphs.next ≤ g.index := by
  refine Nat.le_of_not_lt fun hlt => ?_
  obtain ⟨y, hy, _⟩ := ha.graph hlt hz
  rw [hn] at hy
  cases hy

/-! ## Ticks of all kinds -/

theorem Ages.reviseNode {u : Node → Node} (hu : ∀ x : Node, x.Same (u x)) :
    r.Ages (r.reviseNode n u) := by
  refine .single (.keep (by simp) (by simp) (fun k x' hx' => ?_) fun g => by simp)
  rw [node?_reviseNode] at hx'
  split at hx'
  · obtain ⟨x, hx, rfl⟩ := Option.map_eq_some_iff.1 hx'
    exact ⟨x, hx, hu x⟩
  · exact ⟨x', hx', .refl x'⟩

theorem Ages.reviseGraph {u : Graph → Graph} (hu : ∀ y, (u y).function = y.function) :
    r.Ages (r.reviseGraph g u) := by
  refine .single (.keep (by simp) (by simp) (fun k x' hx' => ⟨x', by simpa using hx', .refl x'⟩)
    fun h => ?_)
  rw [graph?_reviseGraph]
  split
  · cases r.graph? h <;> simp [hu]
  · rfl

theorem Ages.pushNode (x : Node) : r.Ages (r.pushNode x) := .single (.node x)

/-- What neither nodes nor graphs show. -/
theorem Ages.of_views (hn : s.nodes = r.nodes) (hg : s.graphs = r.graphs) : r.Ages s := by
  refine .single (.keep ?_ ?_ (fun k x' hx' => ⟨x', ?_, .refl x'⟩) fun g => ?_)
  · rw [nextNode, hn, nextNode]
  · rw [nextGraph, hg, nextGraph]
  · rwa [node?, hn] at hx'
  · rw [graph?, hg, graph?]

end Registry

end Sdg
