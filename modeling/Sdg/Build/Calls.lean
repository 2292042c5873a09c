import Sdg.Build.Propagation

/-!
# Calls

A call is linked to the graph of every function that it may run. Where the graphs come from is left
open: `request` answers the graph of a function and builds it if need be.
-/

namespace Sdg

namespace Work

/-- Links a call to a graph; answers whether it was not linked before. -/
def addLink (call : NodeId) (callee : GraphId) : Work Bool := do
  let x ← node call
  -- a call that comes to the same graph by two pointees is one caller
  if callee ∈ x.callees then return false
  putNode call { x with callees := x.callees.insert callee }
  updateGraph callee fun y =>
    { y with callers := y.callers.insert call, refcount := y.refcount + 1 }
  return true

/-- Only a node that stands for a call can be linked. -/
def checkCall (m : Module) (call : NodeId) : Work Unit := do
  let key := (← node call).key
  match ← ask (m.operation? key) with
  | some (.call ..) => return
  | _ => throw (.notLinkable key)

/-- Links a call in the block `b` to the graph of `f` and binds its parameters. -/
def linkCall (request : FunctionId → Work GraphId) (m : Module) (b : BlockId) (call : NodeId)
    (f : FunctionId) : Work Unit := do
  checkCall m call
  let caller ← owner call
  let callee ← request f
  if ← addLink call callee then
    report (.linked call caller callee (← ask (m.function f)).name)
  addControl call (← entry callee)
  updateUnit caller (.block b) fun u => { u with callSites := u.callSites.insert call }
  -- the formals as they are by now; what a graph under way finds later comes through
  -- its callers
  absorb m caller callee
  bindActuals m call callee

/-- Links a call to the function that it names: gathers it if asked to, and takes the result for a
heap object if the function allocates. -/
def visitDirectCall (request : FunctionId → Work GraphId) (e : Setup) (g : GraphId) (b : BlockId)
    (call : NodeId) (v : ValueId) (f : FunctionId) : Work Unit := do
  let target ← ask (e.program.function f)
  if e.settings.gathered = some target.name then
    modifyRegistry fun r => { r with gathered := r.gathered.insert call }
  if target.isDefined then linkCall request e.program b call f
  if e.settings.isAllocator target.name then
    report (.allocates v)
    discoverHeap e.program g v

/-- Links a call to what a pointer may point at; answers whether it was linked. -/
def visitPointee (request : FunctionId → Work GraphId) (m : Module) (b : BlockId) (call : NodeId)
    (v : ValueId) (args : List ValueId) (p : Pointee) : Work Bool := do
  if !p.isValid then return false
  let target ← ask (m.stripCasts p.target)
  match ← ask (m.asFunction? target) with
  | some f =>
    let x ← ask (m.function f)
    -- a declaration has no graph to link to, whatever its type
    let fits ← if x.isDefined then ask (m.callFits x v args) else pure false
    if fits then linkCall request m b call f else report (.skipping x.name v)
    return fits
  | none =>
    if (← ask (m.value p.target)).kind matches .aliasOf _ then
      throw (.strayAlias p.target target)
    return false

/-- Links a call through a pointer to all functions that the pointer may point at and that fit. -/
def visitIndirectCall (request : FunctionId → Work GraphId) (e : Setup) (g : GraphId) (b : BlockId)
    (call : NodeId) (v callee : ValueId) (args : List ValueId) : Work Unit := do
  match e.pointsTo? with
  | none => report (.unresolvable v g)
  | some pointsTo =>
    let mut isResolved := false
    for p in pointsTo e.program callee do
      let isLinked ← visitPointee request e.program b call v args p
      isResolved := isResolved || isLinked
    if !isResolved then report (.noTarget v g)

/-- Visits the call `v`, whose node is `call` and which stands in block `b`. -/
def visitCall (request : FunctionId → Work GraphId) (e : Setup) (g : GraphId) (b : BlockId)
    (call : NodeId) (v callee : ValueId) (args : List ValueId) : Work Unit := do
  updateGraph g fun x => { x with callNodes := x.callNodes.insert call }
  match ← ask (e.program.asFunction? (← ask (e.program.stripCasts callee))) with
  | some f => visitDirectCall request e g b call v f
  | none => visitIndirectCall request e g b call v callee args

end Work

end Sdg
