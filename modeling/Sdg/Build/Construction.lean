import Sdg.Build.Body
import Sdg.Build.Control
import Sdg.Build.Teardown

/-!
# Construction

Builds the graph of a function, and on the way the graphs of all functions that it calls. A graph is
registered before its body is visited, so a recursive call finds it and links to it.
-/

namespace Sdg

/-- Why a root has no graph. -/
inductive RootError where
  /-- No function has this name. -/
  | unknown (name : String)
  /-- The function has no body. -/
  | declaration (name : String)
  deriving DecidableEq, Repr

def RootError.message : RootError → String
  | unknown name => "no entry function named \x60" ++ name ++ "\x60"
  | declaration name => "\x60" ++ name ++ "\x60 is only a declaration"

namespace Work

/-- The first node in the body of the function of this name. By now the graph has its exit. -/
def firstNode (g : GraphId) (name : String) : Work NodeId := do
  let x ← graph g
  let first ← require (.noEntryBlock name) (x.entryUnit?.bind (·.first?))
  let _ ← require (.noExitUnit name) x.exitUnit?
  return first

/-- Builds the body of a registered graph; answers whether its function has one. -/
def buildWith (request : FunctionId → Work GraphId) (e : Setup) (g : GraphId) : Work Bool := do
  let id := (← graph g).function
  let f ← ask (e.program.function id)
  if !f.isDefined then return false
  report (.building g f.name)
  updateGraph g fun x => { x with phase := .building }
  let entry ← addNode g (.value f.value)
  updateGraph g fun x => { x with entryNode? := some entry }
  addDeclaredFormals g id f
  -- a recursive call in one of the blocks finds this graph and links to it
  for b in f.blocks do
    visitBlock request e g b
  updateGraph g fun x => { x with entryBlock? := f.entryBlock? }
  -- control may go to a block that comes later, so the edges wait for all units
  for b in f.blocks do
    addSuccessors e.program g b
  -- no block returned
  if (← graph g).exitNode?.isNone then
    let _ ← addExit g .unreachable
  addControls e g
  addControl entry (← firstNode g f.name)
  updateGraph g fun x => { x with phase := .built }
  report (.built g f.name (← graph g).index.size)
  return true

/-- The graph of a function, built on first request and then held by the calls that are linked to it
alone. Builds nest at most `depth` deep. -/
def requestWithin (e : Setup) : (depth : Nat) → FunctionId → Work GraphId
  | 0, _ => throw .exhausted
  | depth + 1, f => do
    match (← registry).lookup? f with
    | some g => return g
    | none =>
      let g ← newGraph f
      if !(← buildWith (requestWithin e depth) e g) then
        throw (.declaration (← ask (e.program.function f)).name)
      -- the reference that the graph was made with is given back, its calls hold it from here on
      unref g false
      return g

/-- The graph of a function, built on first request. Each nested build registers one more function,
so builds nest at most as deep as the module has functions. -/
def request (e : Setup) (f : FunctionId) : Work GraphId :=
  requestWithin e (e.program.functions.size + 1) f

/-- Gives each global variable of the module its shared node. -/
def addGlobals (m : Module) : Work Unit := do
  for v in m.globals do
    if !(← registry).pool.contains v then
      let n ← newNode (.fresh (.value v) none none)
      modifyRegistry fun r => { r with pool := r.pool.insert v n }

/-- The graph of a function, kept alive only by the calls that are linked to it. -/
def getOrBuild (e : Setup) (f : FunctionId) : Work GraphId := do
  addGlobals e.program
  request e f

/-- Builds the graph of the function of this name and of all that it calls, or takes one more
reference to it if it is there. -/
def constructRoot (e : Setup) (name : String) : Work (Except RootError GraphId) := do
  match e.program.functionNamed? name with
  | none =>
    report (.entryNotFound name e.program.name)
    return .error (.unknown name)
  | some f =>
    addGlobals e.program
    match (← registry).lookup? f with
    | some g =>
      retain g
      return .ok g
    | none =>
      report (.constructing name)
      let g ← newGraph f
      if ← buildWith (request e) e g then
        let r ← registry
        report (.constructed r.graphCount r.nodeCount name)
        return .ok g
      else
        -- the graph of a declaration was registered all the same
        destroy g
        return .error (.declaration name)

end Work

end Sdg
