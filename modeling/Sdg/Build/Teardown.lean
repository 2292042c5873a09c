import Sdg.Build.Work

/-!
# Teardown

A graph that nobody holds any more is torn down: its nodes are freed, their edges with them, and the
graphs that its calls were linked to are given back, which may tear these down in turn.
-/

namespace Sdg

/-- Removes a node from all edges at the other ends of its own edges. -/
def Registry.detach (r : Registry) (n : NodeId) (x : Node) : Registry :=
  -- the other end may be gone, and the node itself is
  let update := fun (f : Node → Node) (nodes : Arena Node) (other : NodeId) =>
    match nodes.get? other.index with
    | some y => nodes.set other.index (f y)
    | none => nodes
  let nodes := x.controls.toList.foldl
    (update fun y => { y with controlledBy := y.controlledBy.erase n }) r.nodes
  let nodes := x.controlledBy.toList.foldl
    (update fun y => { y with controls := y.controls.erase n }) nodes
  let nodes := x.feeds.toList.foldl
    (update fun y => { y with fedBy := y.fedBy.erase n }) nodes
  let nodes := x.fedBy.toList.foldl
    (update fun y => { y with feeds := y.feeds.erase n }) nodes
  { r with nodes := nodes }

/-- Frees a node, if it is live. -/
def Registry.freeNode (r : Registry) (n : NodeId) : Registry :=
  match r.node? n with
  | some x => { r with nodes := r.nodes.erase n.index }.detach n x
  | none => r

/-- Removes the graph `g` of the function `f`, and the entry of the function if it leads there. -/
def Registry.removeGraph (r : Registry) (f : FunctionId) (g : GraphId) : Registry := { r with
  byFunction := if r.lookup? f = some g then r.byFunction.erase f else r.byFunction
  graphs := r.graphs.erase g.index }

/-- Changes a node, if it is live. -/
def Registry.reviseNode (r : Registry) (n : NodeId) (f : Node → Node) : Registry :=
  match r.node? n with
  | some x => { r with nodes := r.nodes.set n.index (f x) }
  | none => r

/-- Changes a graph, if it is live. -/
def Registry.reviseGraph (r : Registry) (g : GraphId) (f : Graph → Graph) : Registry :=
  match r.graph? g with
  | some x => { r with graphs := r.graphs.set g.index (f x) }
  | none => r

namespace Work

/-- Gives back a reference to a graph. With `mayDestroy`, `destroy` tears the graph down when it was
the last one. A graph that is gone, or going, needs no reference. -/
def unrefWith (destroy : GraphId → Work Unit) (g : GraphId) (mayDestroy : Bool) : Work Unit := do
  match (← registry).graph? g with
  | none => return
  | some x =>
    if x.refcount = 0 then
      -- the calls of a graph that is going may give back more than is held
      if x.phase ≠ .destroying then throw (.unheld g)
    else
      putGraph g { x with refcount := x.refcount - 1 }
      report (.released g (x.refcount - 1))
      if mayDestroy && x.refcount = 1 && x.phase ≠ .destroying then destroy g

/-- Tears down a node that the graph `g` owns: unlinks it from the graphs that it calls, gives these
back, and frees its actual parameters and the node. A link from `g` to itself tears down nothing. -/
def retireNode (destroy : GraphId → Work Unit) (g : GraphId) (n : NodeId) : Work Unit := do
  let x ← node n
  for callee in x.callees.toList do
    modifyRegistry (·.reviseGraph callee fun y => { y with callers := y.callers.erase n })
    unrefWith destroy callee (callee ≠ g)
  for actual in (x.actuals?.getD .empty).nodes do
    modifyRegistry (·.freeNode actual)
  modifyRegistry (·.freeNode n)

/-- Tears down a graph whatever its references, in at most `depth` nested rounds. -/
def destroyWithin : (depth : Nat) → GraphId → Work Unit
  | 0, _ => throw .exhausted
  | depth + 1, g => do
    let x ← graph g
    if x.phase = .destroying then return
    -- from here on a call that leads back to the graph finds it going
    putGraph g { x with phase := .destroying }
    report (.destroying g x.function x.index.size)
    -- the callers lose the link first, so that nothing links to what is gone
    for caller in x.callers.toList do
      modifyRegistry (·.reviseNode caller fun y => { y with callees := y.callees.erase g })
    for n in x.index.values do
      retireNode (destroyWithin depth) g n
    for formal in x.formals.nodes do
      modifyRegistry (·.freeNode formal)
    modifyRegistry (·.removeGraph x.function g)

/-- Tears down a graph whatever its references. Each nested round is about another graph, so there
are at most as many as there are graphs. -/
def destroy (g : GraphId) : Work Unit := do
  destroyWithin ((← registry).graphs.next + 1) g

/-- Gives back a reference to a graph; with `mayDestroy` the last one tears it down. -/
def unref (g : GraphId) (mayDestroy : Bool) : Work Unit := unrefWith destroy g mayDestroy

/-- Takes one more reference to a graph. -/
def retain (g : GraphId) : Work Unit := updateGraph g fun x => { x with refcount := x.refcount + 1 }

/-- Gives back a reference to a graph, which is torn down if it was the last one. -/
def release (g : GraphId) : Work Unit := unref g true

end Work

end Sdg
