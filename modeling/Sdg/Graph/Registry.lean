import Sdg.Collection.Arena
import Sdg.Graph.Basic

/-!
# The registry

All nodes and graphs that were made for a module. Each function has at most one live graph, which is
entered under the function for as long as it is there, and each global variable has one node that
belongs to no graph.
-/

namespace Sdg

structure Registry where
  graphs : Arena Graph
  /-- The graph of each function that has one. -/
  byFunction : OrderedMap FunctionId GraphId
  nodes : Arena Node
  /-- The shared nodes of the global variables. -/
  pool : OrderedMap ValueId NodeId
  /-- The calls of the function whose calls are gathered. They may have been freed since. -/
  gathered : OrderedSet NodeId

namespace Registry

def empty : Registry := ⟨.empty, .empty, .empty, .empty, .empty⟩

instance : Inhabited Registry := ⟨empty⟩

/-- The graph `g`, if it is live. -/
def graph? (r : Registry) (g : GraphId) : Option Graph := r.graphs.get? g.index

/-- The node `n`, if it is live. -/
def node? (r : Registry) (n : NodeId) : Option Node := r.nodes.get? n.index

/-- The live graphs in the order of their creation. -/
def liveGraphs (r : Registry) : List (GraphId × Graph) :=
  r.graphs.live.map fun (i, g) => (⟨i⟩, g)

/-- The live nodes in the order of their creation. -/
def liveNodes (r : Registry) : List (NodeId × Node) :=
  r.nodes.live.map fun (i, n) => (⟨i⟩, n)

/-- The graph that is entered under a function. -/
def lookup? (r : Registry) (f : FunctionId) : Option GraphId := r.byFunction.get? f

/-- The number of functions under which a graph is entered. -/
def graphCount (r : Registry) : Nat := r.byFunction.size

/-- The number of live nodes, shared ones included. -/
def nodeCount (r : Registry) : Nat := r.nodes.count

end Registry

end Sdg
