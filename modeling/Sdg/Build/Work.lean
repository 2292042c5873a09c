import Sdg.Build.Event
import Sdg.Build.Fault
import Sdg.Graph.Registry

/-!
# Work on a registry

A piece of work changes the registry and reports events, and may end in a fault; what it reported
before the fault stays known. The pieces here read or change one node, graph or unit, and every
other piece is made of them.
-/

namespace Sdg

/-- The registry that is being worked on and what was reported so far, latest first. -/
structure Workspace where
  registry : Registry
  events : List Event

abbrev Work := ExceptT Fault (StateM Workspace)

namespace Work

/-- Does the work on a registry: the events, oldest first, and what came out with the registry after
it. -/
def runOn {α : Type} (w : Work α) (r : Registry) : List Event × Except Fault (α × Registry) :=
  let (a?, s) := w.run.run ⟨r, []⟩
  (s.events.reverse, a?.map fun a => (a, s.registry))

def report (e : Event) : Work Unit := modify fun s => { s with events := e :: s.events }

def registry : Work Registry := return (← get).registry

def modifyRegistry (f : Registry → Registry) : Work Unit :=
  modify fun s => { s with registry := f s.registry }

/-- A query of the module. -/
def ask {α : Type} : Except Missing α → Work α
  | .ok a => return a
  | .error e => throw (.missing e)

/-- A value that has to be there. -/
def require {α : Type} (fault : Fault) : Option α → Work α
  | some a => return a
  | none => throw fault

/-! ## Nodes -/

def node (n : NodeId) : Work Node := do require (.nodeGone n) ((← registry).node? n)

def putNode (n : NodeId) (x : Node) : Work Unit :=
  modifyRegistry fun r => { r with nodes := r.nodes.set n.index x }

def updateNode (n : NodeId) (f : Node → Node) : Work Unit := do putNode n (f (← node n))

def newNode (x : Node) : Work NodeId := do
  let n : NodeId := ⟨(← registry).nodes.next⟩
  modifyRegistry fun r => { r with nodes := r.nodes.push x }
  return n

/-- Makes `a` control `b`. -/
def addControl (a b : NodeId) : Work Unit := do
  updateNode a fun x => { x with controls := x.controls.insert b }
  updateNode b fun x => { x with controlledBy := x.controlledBy.insert a }

/-- Makes `b` depend on the data of `a`. -/
def addData (a b : NodeId) : Work Unit := do
  updateNode a fun x => { x with feeds := x.feeds.insert b }
  updateNode b fun x => { x with fedBy := x.fedBy.insert a }

/-! ## Graphs -/

def graph (g : GraphId) : Work Graph := do require (.graphGone g) ((← registry).graph? g)

def putGraph (g : GraphId) (x : Graph) : Work Unit :=
  modifyRegistry fun r => { r with graphs := r.graphs.set g.index x }

def updateGraph (g : GraphId) (f : Graph → Graph) : Work Unit := do putGraph g (f (← graph g))

/-- Registers a graph for a function that has none. -/
def newGraph (f : FunctionId) : Work GraphId := do
  let r ← registry
  if r.byFunction.contains f then throw (.secondGraph f)
  let g : GraphId := ⟨r.graphs.next⟩
  modifyRegistry fun r =>
    { r with graphs := r.graphs.push (.fresh f), byFunction := r.byFunction.insert f g }
  return g

def entry (g : GraphId) : Work NodeId := do require (.noEntry g) (← graph g).entryNode?

/-- The graph that a call belongs to. -/
def owner (call : NodeId) : Work GraphId := do require (.ownerless call) (← node call).graph?

/-! ## Units -/

/-- Changes a unit, which has to exist. -/
def updateUnit (g : GraphId) (key : BlockKey) (f : BlockUnit → BlockUnit) : Work Unit := do
  let x ← graph g
  let _ ← require (.missingUnit key) (x.unit? key)
  putGraph g (x.modifyUnit key f)

/-- Adds a labelled edge between units. -/
def addUnitEdge (g : GraphId) (a b : BlockKey) (label : Nat) : Work Unit := do
  updateUnit g a fun u => { u with successors := u.successors.insert ⟨b, label⟩ }
  updateUnit g b fun u => { u with predecessors := u.predecessors.insert ⟨a, label⟩ }

/-- Makes unit `a` control unit `b`. -/
def addUnitControl (g : GraphId) (a b : BlockKey) : Work Unit := do
  updateUnit g a fun u => { u with controls := u.controls.insert b }
  updateUnit g b fun u => { u with controlledBy := u.controlledBy.insert a }

/-! ## Nodes of graphs -/

/-- Enters a node into the index of its graph. -/
def indexNode (g : GraphId) (key : NodeKey) (n : NodeId) : Work Unit := do
  let x ← graph g
  -- one node for each key, so an instruction that stands twice is a fault
  if x.index.contains key then throw (.duplicate key g)
  putGraph g { x with index := x.index.insert key n }

/-- Makes a node one of the graph `g`. To this graph it belongs for good. -/
def assign (g : GraphId) (n : NodeId) : Work Unit := do
  let x ← node n
  if let some owner := x.graph? then
    if owner ≠ g then throw (.owned x.key owner g)
  putNode n { x with graph? := some g }

/-- A new node of a graph, in a unit or in none. -/
def ownedNode (g : GraphId) (key : NodeKey) (block? : Option BlockKey) : Work NodeId := do
  let n ← newNode (.fresh key none none)
  assign g n
  updateNode n fun x => { x with block? := block? }
  return n

/-- A new node of a graph outside of all units. -/
def addNode (g : GraphId) (key : NodeKey) : Work NodeId := do
  let n ← ownedNode g key none
  indexNode g key n
  return n

/-- A new node at the end of a unit. -/
def addUnitNode (g : GraphId) (block : BlockKey) (key : NodeKey) : Work NodeId := do
  let n ← ownedNode g key (some block)
  indexNode g key n
  updateUnit g block fun u => { u with nodes := u.nodes ++ [n] }
  return n

/-- A new pair of parameter nodes, controlled by `controller`. They belong to the graph but are not
in its index, because their key is that of what they stand for. -/
def addPair (g : GraphId) (key : NodeKey) (controller : NodeId) : Work ParameterPair := do
  let input ← ownedNode g key none
  let output ← ownedNode g key none
  addControl controller input
  addControl controller output
  return ⟨input, output⟩

end Work

end Sdg
