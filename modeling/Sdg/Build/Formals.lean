import Sdg.Build.Setup
import Sdg.Build.Work

/-!
# Formal parameters

A graph gets a pair of nodes for each declared parameter, one for all variadic arguments, and one
for each global variable and heap object that its function, or one that it calls, may touch.
-/

namespace Sdg

namespace Work

/-- A new pair for a formal parameter, controlled by the entry. -/
def newFormalPair (g : GraphId) (key : NodeKey) : Work ParameterPair := do
  addPair g key (← entry g)

/-- Makes `v` a declared or heap parameter; answers whether it was none before. -/
def addFormal (g : GraphId) (v : ValueId) : Work Bool := do
  if (← graph g).formals.contains v then return false
  let q ← newFormalPair g (.value v)
  updateGraph g fun x => { x with formals := x.formals.addOwn v q }
  return true

/-- Makes `v` a global parameter; answers whether it was none before. -/
def addFormalGlobal (g : GraphId) (v : ValueId) : Work Bool := do
  if (← graph g).formals.contains v then return false
  let q ← newFormalPair g (.value v)
  updateGraph g fun x => { x with formals := x.formals.addGlobal v q }
  return true

/-- Gives a graph the pair for its variadic arguments. There is one such pair at most. -/
def setVariadic (g : GraphId) (q : ParameterPair) : Work Unit := do
  let x ← graph g
  putGraph g { x with formals := ← require .secondVariadic (x.formals.setVariadic? q) }

/-- Adds the parameters that a function declares. What comes in variadically also goes out. -/
def addDeclaredFormals (g : GraphId) (id : FunctionId) (f : Function) : Work Unit := do
  for v in f.params do
    let _ ← addFormal g v
  -- this pair stands under no value, so it is in neither map
  if f.isVariadic then
    let q ← newFormalPair g (.variadic id)
    addData q.input q.output
    setVariadic g q

end Work

end Sdg
