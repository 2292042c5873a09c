import Sdg.Build.Fault
import Sdg.Graph.Registry

/-!
# Structural check

Looks through all graphs that are built for something that does not fit together, and tells the
first such thing.
-/

namespace Sdg

/-- Something that does not fit, in the graph of the function of that name. -/
inductive Finding where
  | missingEntry (function : String)
  | missingExit (function : String)
  | missingEntryBlock (function : String)
  | missingExitBlock (function : String)
  | emptyBlock (function : String) (block : BlockKey)
  /-- A node of a unit says that it belongs elsewhere. -/
  | misplaced (function : String) (block : BlockKey) (node : NodeId)
  /-- The exit label is on an edge to another unit, or another label on an edge to the exit. -/
  | badExitEdge (function : String) (block : BlockKey) (label : Nat)
  /-- A return does not control the exit. -/
  | detachedReturn (function : String) (node : NodeId)
  /-- A caller is not linked to the graph. -/
  | danglingCaller (function : String) (node : NodeId)
  deriving DecidableEq, Repr

def Finding.message : Finding → String
  | missingEntry f => s!"graph of {f} has no entry node"
  | missingExit f => s!"graph of {f} has no exit node"
  | missingEntryBlock f => s!"graph of {f} has no entry block"
  | missingExitBlock f => s!"graph of {f} has no exit block"
  | emptyBlock f b => s!"block {b} of {f} has no nodes"
  | misplaced f b n => s!"node {n} in block {b} of {f} does not belong there"
  | badExitEdge f b label =>
    s!"edge labeled {label} from {b} of {f} does not fit its target"
  | detachedReturn f n => s!"return {n} of {f} is not connected to the exit node"
  | danglingCaller f n => s!"caller {n} of {f} does not link to its graph"

/-- The first finding in a list, each item of which may have one. -/
def firstFinding {α : Type} (check : α → Except Fault (Option Finding)) :
    List α → Except Fault (Option Finding)
  | [] => return none
  | a :: as => do
    match ← check a with
    | some finding => return some finding
    | none => firstFinding check as

namespace Registry

/-- The node `n`, which has to be live. -/
def liveNode (r : Registry) (n : NodeId) : Except Fault Node :=
  match r.node? n with
  | some x => .ok x
  | none => .error (.nodeGone n)

/-- Checks a node in the unit `block` of `g`. -/
def verifyNode (r : Registry) (m : Module) (g : GraphId) (function : String) (exit : NodeId)
    (block : BlockKey) (n : NodeId) : Except Fault (Option Finding) := do
  let x ← r.liveNode n
  if x.block? ≠ some block ∨ x.graph? ≠ some g then return some (.misplaced function block n)
  -- a return has to control the exit
  match ← (m.operation? x.key).mapError .missing with
  | some (.ret _) =>
    return if exit ∈ x.controls then none else some (.detachedReturn function n)
  | _ => return none

/-- Checks a unit of `g`. -/
def verifyUnit (r : Registry) (m : Module) (g : GraphId) (function : String) (exit : NodeId)
    (u : BlockUnit) : Except Fault (Option Finding) := do
  if u.nodes.isEmpty then return some (.emptyBlock function u.key)
  match ← firstFinding (r.verifyNode m g function exit u.key) u.nodes with
  | some finding => return some finding
  | none =>
    return (u.successors.toList.find? fun edge =>
      (edge.label = exitLabel) ≠ (edge.other = .exit)).map fun edge =>
        .badExitEdge function u.key edge.label

/-- Checks that a caller of `g` is linked to it. -/
def verifyCaller (r : Registry) (g : GraphId) (function : String) (call : NodeId) :
    Except Fault (Option Finding) := do
  if g ∈ (← r.liveNode call).callees then return none
  else return some (.danglingCaller function call)

/-- Checks a graph. -/
def verifyGraph (r : Registry) (m : Module) (g : GraphId) (x : Graph) :
    Except Fault (Option Finding) := do
  -- a graph that is not finished need not fit yet
  if x.phase ≠ .built then return none
  let name := (← (m.function x.function).mapError .missing).name
  match x.exitNode? with
  | none => return some (.missingExit name)
  | some exit =>
    if x.entryNode?.isNone then return some (.missingEntry name)
    if x.entryUnit?.isNone then return some (.missingEntryBlock name)
    match x.exitUnit? with
    | none => return some (.missingExitBlock name)
    | some exitUnit =>
      match ← firstFinding (r.verifyUnit m g name exit) (x.units.values ++ [exitUnit]) with
      | some finding => return some finding
      | none => firstFinding (r.verifyCaller g name) x.callers.toList

/-- The first thing that does not fit in a built graph. -/
def verify (r : Registry) (m : Module) : Except Fault (Option Finding) :=
  firstFinding (fun (g, x) => r.verifyGraph m g x) r.liveGraphs

end Registry

end Sdg
