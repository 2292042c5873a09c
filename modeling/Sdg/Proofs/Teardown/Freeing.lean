import Sdg.Proofs.Registry.View

/-!
# Freeing nodes

What freeing a node does to the view of a registry. The node looks up the other ends of its edges
in its own edge sets and takes itself out of the sets there.

Main result:

* `node?_freeNode` — freeing a node takes it out of the edge sets of its neighbours and changes
  nothing else.
-/

namespace Sdg

namespace Arena

/-- Changes a node, if it is live. -/
def revise (f : Node → Node) (nodes : Arena Node) (n : NodeId) : Arena Node :=
  match nodes.get? n.index with
  | some y => nodes.set n.index (f y)
  | none => nodes

theorem get?_revise (f : Node → Node) (nodes : Arena Node) (a n : NodeId) :
    (nodes.revise f a).get? n.index =
      if n = a then (nodes.get? n.index).map f else nodes.get? n.index := by
  unfold revise
  by_cases hn : n = a
  · subst hn
    -- the place itself, where there may be no node
    cases hx : nodes.get? n.index with
    | none => simp [hx]
    | some x => simp [get?_set, hx]
  · have hi : a.index ≠ n.index := by
      intro h
      exact hn (by cases n; cases a; simp_all)
    -- another place, which the change does not touch
    cases hx : nodes.get? a.index with
    | none => simp [hn]
    | some x => simp [get?_set, hi, hn]

/-- One change at each place of a list. -/
theorem get?_foldl_revise (f : Node → Node) {l : List NodeId} (hl : l.Nodup) (nodes : Arena Node)
    (n : NodeId) : (l.foldl (revise f) nodes).get? n.index =
      if n ∈ l then (nodes.get? n.index).map f else nodes.get? n.index := by
  induction l generalizing nodes with
  | nil => simp
  | cons a l ih =>
    obtain ⟨ha, hl⟩ := List.nodup_cons.1 hl
    rw [List.foldl_cons, ih hl, get?_revise]
    -- the places are distinct, so the rest of the list does not come back to this one
    by_cases hn : n = a
    · subst hn
      simp [ha]
    · simp [hn]

theorem next_foldl_revise (f : Node → Node) (l : List NodeId) (nodes : Arena Node) :
    (l.foldl (revise f) nodes).next = nodes.next := by
  induction l generalizing nodes with
  | nil => rfl
  | cons a l ih =>
    rw [List.foldl_cons, ih]
    unfold revise
    split <;> simp

end Arena

namespace Registry

variable {r : Registry} {n k : NodeId} {x : Node}

@[simp] theorem graph?_freeNode (r : Registry) (n : NodeId) (g : GraphId) :
    (r.freeNode n).graph? g = r.graph? g := by
  unfold freeNode
  split <;> rfl

@[simp] theorem nextGraph_freeNode (r : Registry) (n : NodeId) :
    (r.freeNode n).nextGraph = r.nextGraph := by
  unfold freeNode
  split <;> rfl

@[simp] theorem pool_freeNode (r : Registry) (n : NodeId) : (r.freeNode n).pool = r.pool := by
  unfold freeNode
  split <;> rfl

@[simp] theorem byFunction_freeNode (r : Registry) (n : NodeId) :
    (r.freeNode n).byFunction = r.byFunction := by
  unfold freeNode
  split <;> rfl

@[simp] theorem gathered_freeNode (r : Registry) (n : NodeId) :
    (r.freeNode n).gathered = r.gathered := by
  unfold freeNode
  split <;> rfl

/-- The four kinds of edges one after the other. -/
theorem nodes_detach (r : Registry) (n : NodeId) (x : Node) : (r.detach n x).nodes =
    x.fedBy.toList.foldl (Arena.revise fun y => { y with feeds := y.feeds.erase n })
      (x.feeds.toList.foldl (Arena.revise fun y => { y with fedBy := y.fedBy.erase n })
        (x.controlledBy.toList.foldl
          (Arena.revise fun y => { y with controls := y.controls.erase n })
          (x.controls.toList.foldl
            (Arena.revise fun y => { y with controlledBy := y.controlledBy.erase n })
            r.nodes))) := rfl

@[simp] theorem nextNode_freeNode (r : Registry) (n : NodeId) :
    (r.freeNode n).nextNode = r.nextNode := by
  unfold freeNode
  split
  · unfold nextNode
    rw [nodes_detach, Arena.next_foldl_revise, Arena.next_foldl_revise, Arena.next_foldl_revise,
      Arena.next_foldl_revise, Arena.next_erase]
  · rfl

/-- What a node that stays keeps when its neighbour `n`, which looked like `x`, is freed. -/
def withoutNeighbour (n : NodeId) (x : Node) (k : NodeId) (y : Node) : Node := { y with
  controls := if k ∈ x.controlledBy then y.controls.erase n else y.controls
  controlledBy := if k ∈ x.controls then y.controlledBy.erase n else y.controlledBy
  feeds := if k ∈ x.fedBy then y.feeds.erase n else y.feeds
  fedBy := if k ∈ x.feeds then y.fedBy.erase n else y.fedBy }

theorem node?_freeNode (hn : r.node? n = some x) (k : NodeId) : (r.freeNode n).node? k =
    if k = n then none else (r.node? k).map (withoutNeighbour n x k) := by
  unfold freeNode
  rw [hn]
  unfold node?
  rw [nodes_detach, Arena.get?_foldl_revise _ x.fedBy.nodup,
    Arena.get?_foldl_revise _ x.feeds.nodup, Arena.get?_foldl_revise _ x.controlledBy.nodup,
    Arena.get?_foldl_revise _ x.controls.nodup, Arena.get?_erase]
  by_cases hk : k = n
  · subst hk
    simp
  · have hi : n.index ≠ k.index := by
      intro h
      exact hk (by cases n; cases k; simp_all)
    rw [if_neg hk, if_neg hi]
    cases hy : r.nodes.get? k.index with
    | none => simp
    | some y =>
      -- each of the four sets of the freed node tells of one set of the neighbour
      unfold withoutNeighbour
      by_cases h1 : k ∈ x.controls.toList <;> by_cases h2 : k ∈ x.controlledBy.toList <;>
        by_cases h3 : k ∈ x.feeds.toList <;> by_cases h4 : k ∈ x.fedBy.toList <;>
        simp [h1, h2, h3, h4, OrderedSet.mem_def]

theorem freeNode_of_none (hn : r.node? n = none) : r.freeNode n = r := by
  unfold freeNode
  rw [hn]

end Registry

end Sdg
