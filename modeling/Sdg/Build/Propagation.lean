import Sdg.Build.Bindings

/-!
# Propagation of parameters

A global or heap object that a function may touch is touched by every function that calls it. So a
new formal parameter goes on to the callers, and from them to theirs, until nothing is new. A value
becomes a parameter of a graph once only, and that bounds how far one discovery leads.
-/

namespace Sdg

namespace Work

/-- Whether a value is a declared argument. -/
def isArgument (m : Module) (v : ValueId) : Work Bool := do
  return (← ask (m.value v)).kind matches .argument ..

/-- Makes the globals and heap objects of `callee` parameters of `g`. If any of them is new,
`propagate` hands them on. -/
def absorbWith (propagate : GraphId → Work Unit) (m : Module) (g callee : GraphId) :
    Work Unit := do
  -- a list to go by: the loops below may add to the formals of `callee` itself
  let formals := (← graph callee).formals
  let heap ← formals.own.keys.filterM fun v => return !(← isArgument m v)
  let mut isChanged := false
  for v in formals.globals.keys do
    let isNew ← addFormalGlobal g v
    isChanged := isChanged || isNew
  for v in heap do
    let isNew ← addFormal g v
    isChanged := isChanged || isNew
  if isChanged then
    report (.absorbed g callee)
    propagate g

/-- Brings all callers of `g` up to date with its formals, in at most `depth` nested rounds. -/
def propagateWithin (m : Module) : (depth : Nat) → GraphId → Work Unit
  | 0, _ => throw .exhausted
  | depth + 1, g => do
    for call in (← graph g).callers.toList do
      if let some caller := (← node call).graph? then
        bindActuals m call g
        -- a caller that has all the values already hands nothing on
        absorbWith (propagateWithin m depth) m caller g

/-- Brings all callers of `g` up to date with its formals. Each nested round has made a value a
parameter of a graph, so there are at most as many as there are values in all graphs together. -/
def propagate (m : Module) (g : GraphId) : Work Unit := do
  propagateWithin m ((← registry).graphs.next * m.values.size + 1) g

/-- Makes the globals and heap objects of `callee` parameters of `g` and hands new ones on. -/
def absorb (m : Module) (g callee : GraphId) : Work Unit := absorbWith (propagate m) m g callee

/-- A global that the function of `g` touches itself. -/
def discoverGlobal (m : Module) (g : GraphId) (v : ValueId) : Work Unit := do
  if ← addFormalGlobal g v then
    report (.newGlobal v g)
    propagate m g

/-- A heap object that the function of `g` allocates itself. -/
def discoverHeap (m : Module) (g : GraphId) (call : ValueId) : Work Unit := do
  if ← addFormal g call then
    report (.newHeap call g)
    propagate m g

end Work

end Sdg
