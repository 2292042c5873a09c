import Sdg.Collection.OrderedSet
import Sdg.Graph.Parameters

/-!
# Dependence graphs

The graph of a function, its nodes, and the units that stand for its blocks. Edges between nodes are
kept at both ends, and so are edges between units.
-/

namespace Sdg

/-- The label of the edge from a unit with a return to the exit unit. Other edges are labelled by
their position among the successors, which stays below. -/
def exitLabel : Nat := 255

/-- A labelled edge, kept at one of its ends and naming the other. -/
structure UnitEdge where
  other : BlockKey
  label : Nat
  deriving DecidableEq, Repr

/-- A node. Call nodes also know the graphs that they are linked to and their actual parameters. -/
structure Node where
  key : NodeKey
  /-- The graph that owns the node; none for a shared node of a global variable. -/
  graph? : Option GraphId
  block? : Option BlockKey
  /-- The nodes that this one controls. -/
  controls : OrderedSet NodeId
  /-- The nodes that control this one. -/
  controlledBy : OrderedSet NodeId
  /-- The nodes that depend on the data of this one. -/
  feeds : OrderedSet NodeId
  /-- The nodes on whose data this one depends. -/
  fedBy : OrderedSet NodeId
  /-- The graphs of the functions that a call may run. -/
  callees : OrderedSet GraphId
  /-- The actual parameters of a call. -/
  actuals? : Option Parameters

/-- A node without edges. -/
def Node.fresh (key : NodeKey) (graph? : Option GraphId) (block? : Option BlockKey) : Node :=
  ⟨key, graph?, block?, .empty, .empty, .empty, .empty, .empty, none⟩

/-- The nodes of a block in the order of its instructions, and the edges to other blocks. -/
structure BlockUnit where
  key : BlockKey
  nodes : List NodeId
  successors : OrderedSet UnitEdge
  predecessors : OrderedSet UnitEdge
  /-- The calls of the block that were linked to a graph. -/
  callSites : OrderedSet NodeId
  /-- The units that this one controls. -/
  controls : OrderedSet BlockKey
  /-- The units that control this one. -/
  controlledBy : OrderedSet BlockKey

namespace BlockUnit

def fresh (key : BlockKey) : BlockUnit := ⟨key, [], .empty, .empty, .empty, .empty, .empty⟩

def first? (u : BlockUnit) : Option NodeId := u.nodes.head?

def last? (u : BlockUnit) : Option NodeId := u.nodes.getLast?

/-- Whether control may go from the unit to itself. -/
def hasSelfLoop (u : BlockUnit) : Bool := u.successors.toList.any (·.other = u.key)

/-- Whether the unit decides where control goes: it has more than one outgoing edge. -/
def decides (u : BlockUnit) : Bool := 1 < u.successors.size

end BlockUnit

/-- Where a graph is in its life. -/
inductive Phase where
  /-- Registered, nothing visited. -/
  | unbuilt
  /-- Its blocks are being visited. A recursive request finds the graph in this phase. -/
  | building
  | built
  /-- Being torn down. -/
  | destroying
  deriving DecidableEq, Repr

/-- The dependence graph of a function. -/
structure Graph where
  function : FunctionId
  phase : Phase
  /-- One for each link of a call node, and one for each time that the graph was asked for as a root
  or retained. -/
  refcount : Nat
  entryNode? : Option NodeId
  exitNode? : Option NodeId
  entryBlock? : Option BlockId
  /-- The units of the blocks of the function. -/
  units : OrderedMap BlockId BlockUnit
  exitUnit? : Option BlockUnit
  /-- The nodes of the graph other than those of parameters. -/
  index : OrderedMap NodeKey NodeId
  /-- The formal parameters. -/
  formals : Parameters
  /-- All call nodes of the graph, linked or not. -/
  callNodes : OrderedSet NodeId
  /-- The call nodes that are linked to this graph. -/
  callers : OrderedSet NodeId

namespace Graph

/-- A graph about which nothing is known yet, held once. -/
def fresh (f : FunctionId) : Graph :=
  ⟨f, .unbuilt, 1, none, none, none, .empty, none, .empty, .empty, .empty, .empty⟩

def unit? (g : Graph) : BlockKey → Option BlockUnit
  | .block b => g.units.get? b
  | .exit => g.exitUnit?

/-- Changes a unit, if there is one under the key. -/
def modifyUnit (g : Graph) (key : BlockKey) (f : BlockUnit → BlockUnit) : Graph :=
  match key with
  | .block b => { g with units := g.units.modify b f }
  | .exit => { g with exitUnit? := g.exitUnit?.map f }

/-- The unit of the first block. -/
def entryUnit? (g : Graph) : Option BlockUnit := g.entryBlock?.bind g.units.get?

/-- The node of an instruction, or of the function itself. -/
def nodeOf? (g : Graph) (v : ValueId) : Option NodeId := g.index.get? (.value v)

end Graph

end Sdg
