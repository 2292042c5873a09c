import Sdg.Build.Fault
import Sdg.Graph.Registry
import Sdg.IR.Strip

/-!
# Call sites

Finds the calls of functions with given names: a linked call by the graphs that it is linked to, any
other call by the function that it names.
-/

namespace Sdg

namespace Module

/-- Whether the function has one of the names. -/
def isNamed (m : Module) (f : FunctionId) (names : List String) : Except Missing Bool :=
  return names.contains (← m.function f).name

/-- Whether a node that is not linked is a call that names a function with one of the names. -/
def callsOneOf (m : Module) (key : NodeKey) (names : List String) : Except Missing Bool := do
  match ← m.operation? key with
  | some (.call callee _) =>
    match ← m.asFunction? (← m.stripCasts callee) with
    | some f => m.isNamed f names
    | none => return false
  | _ => return false

end Module

namespace Registry

/-- Whether one of the graphs is live and of a function with one of the names. -/
def anyNamed (r : Registry) (m : Module) (names : List String) :
    List GraphId → Except Missing Bool
  | [] => return false
  | g :: gs => do
    let found ← match r.graph? g with
      | some x => m.isNamed x.function names
      | none => pure false
    if found then return true else r.anyNamed m names gs

/-- Whether a call calls a function with one of the names. -/
def callMatches (r : Registry) (m : Module) (names : List String) (call : NodeId) :
    Except Fault Bool :=
  match r.node? call with
  | none => .error (.nodeGone call)
  | some x =>
    -- a call that is linked is known by its links alone
    (if x.callees.isEmpty then m.callsOneOf x.key names
      else r.anyNamed m names x.callees.toList).mapError .missing

/-- The calls, across all live graphs, of functions with one of the names. -/
def callSites (r : Registry) (m : Module) (names : List String) :
    Except Fault (OrderedSet NodeId) := do
  let calls := r.liveGraphs.flatMap fun (_, g) => g.callNodes.toList
  return .ofList (← calls.filterM (r.callMatches m names))

end Registry

end Sdg
