import Sdg.Build.Formals

/-!
# Actual parameters

At a call that is linked to a graph, the actual parameters are bound to the formal ones. A call has
one pair for each value that it passes, however many functions it may run and however many of their
parameters take that value.
-/

namespace Sdg

namespace Work

/-- The actual parameters of a call; none if it has not got any yet. -/
def actuals (call : NodeId) : Work Parameters := return (← node call).actuals?.getD .empty

/-- The pair under which the call passes `v`, made on first use. -/
def actualPair (call : NodeId) (caller : GraphId) (v : ValueId) (isGlobal : Bool) :
    Work ParameterPair := do
  match (← actuals call).find? v with
  | some q => return q
  | none =>
    let q ← addPair caller (.value v) call
    let ps ← actuals call
    let ps := if isGlobal then ps.addGlobal v q else ps.addOwn v q
    updateNode call fun x => { x with actuals? := some ps }
    return q

/-- Binds what the call passes under `v` to a formal parameter. -/
def bind (call : NodeId) (caller : GraphId) (v : ValueId) (formal : ParameterPair)
    (isGlobal : Bool) : Work Unit := do
  let actual ← actualPair call caller v isGlobal
  addData actual.input formal.input
  addData formal.output actual.output

/-- The arguments of a call node. -/
def arguments (m : Module) (call : NodeId) : Work (List ValueId) := do
  match ← ask (m.operation? (← node call).key) with
  | some (.call _ args) => return args
  | _ => throw (.notCall call)

/-- The bindings of a call with the given arguments to the formals of a function with the declared
parameters: what is passed, the formal, and whether it is a global. Declared parameters take
arguments by position, heap objects and globals are passed as themselves, and arguments that are
left over go to the variadic parameter. -/
def bindingsOf (declared args : List ValueId) (formals : Parameters) :
    List (ValueId × ParameterPair × Bool) :=
  ((declared.zip args).filterMap fun (v, arg) =>
      (formals.find? v).map fun q => (arg, q, false))
    ++ ((formals.own.entries.filter fun e => !declared.contains e.1).map
      fun (v, q) => (v, q, false))
    ++ (formals.globals.entries.map fun (v, q) => (v, q, true))
    ++ (formals.variadic?.toList.flatMap fun q =>
      (args.drop declared.length).map fun arg => (arg, q, false))

/-- Brings the actual parameters of a call up to date with the formals of a graph. -/
def bindActuals (m : Module) (call : NodeId) (callee : GraphId) : Work Unit := do
  let caller ← owner call
  let args ← arguments m call
  let x ← graph callee
  let f ← ask (m.function x.function)
  for (v, formal, isGlobal) in bindingsOf f.params args x.formals do
    bind call caller v formal isGlobal

end Work

end Sdg
