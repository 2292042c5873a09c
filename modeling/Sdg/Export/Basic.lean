import Sdg.Build.Fault
import Sdg.Graph.Registry

/-!
# Export

One graph of everything that is live: all nodes, the control and data edges between them, and, for
each unit that controls another, an edge from the last node of the one to the first node of the
other.
-/

namespace Sdg

/-- A node of the exported graph. -/
structure ExportNode where
  id : NodeId
  key : NodeKey
  /-- The function of the graph that owns the node; none for globals. -/
  function? : Option FunctionId
  label : String
  deriving DecidableEq, Repr

inductive EdgeKind where
  /-- The source decides whether the target runs. -/
  | control
  /-- The target reads what the source makes. -/
  | data
  deriving DecidableEq, Repr

def EdgeKind.name : EdgeKind → String
  | control => "Control"
  | data => "Data"

/-- An edge between the nodes at two positions. -/
structure ExportEdge where
  source : Nat
  target : Nat
  kind : EdgeKind
  deriving DecidableEq, Repr

structure Export where
  nodes : List ExportNode
  edges : List ExportEdge
  deriving DecidableEq, Repr

/-- The position of a node in the exported graph. -/
def Export.find? (x : Export) (n : NodeId) : Option Nat := x.nodes.findIdx? (·.id = n)

namespace Module

/-- What a node is labelled with. -/
def label (m : Module) : NodeKey → Except Missing String
  | .value v => do
    match ← m.instruction? v, ← m.valueName? v with
    | some i, _ => return toString v ++ " = " ++ i.op.name
    | none, some name =>
      match (← m.value v).kind with
      | .function _ => return "entry " ++ name
      | _ => return toString v ++ " " ++ name
    | none, none => return toString v
  | .exit f kind => return s!"exit({kind}) " ++ (← m.function f).name
  | .variadic f => return "vararg " ++ (← m.function f).name

end Module

namespace Registry

def exportNode (r : Registry) (m : Module) (n : NodeId) (x : Node) :
    Except Missing ExportNode := do
  return ⟨n, x.key, (x.graph?.bind r.graph?).map (·.function), ← m.label x.key⟩

/-- The ends of all edges: those of each node, control before data, and then those between units. -/
def edgeEnds (r : Registry) : List (NodeId × NodeId × EdgeKind) :=
  (r.liveNodes.flatMap fun (n, x) =>
      x.controls.toList.map (fun t => (n, t, .control))
        ++ x.feeds.toList.map fun t => (n, t, .data))
    ++ r.liveGraphs.flatMap fun (_, g) => g.units.values.flatMap fun u =>
      u.controls.toList.filterMap fun c => do
        -- control passes from the end of one unit to the start of the other
        let last ← u.last?
        let first ← (g.unit? c).bind (·.first?)
        return (last, first, .control)

/-- The exported graph. Edges from or to something that is not live are left out. -/
def toExport (r : Registry) (m : Module) : Except Missing Export := do
  let nodes ← r.liveNodes.mapM fun (n, x) => r.exportNode m n x
  let position := fun (n : NodeId) => nodes.findIdx? (·.id = n)
  return ⟨nodes, r.edgeEnds.filterMap fun (a, b, kind) => do
    return ⟨← position a, ← position b, kind⟩⟩

end Registry

end Sdg
