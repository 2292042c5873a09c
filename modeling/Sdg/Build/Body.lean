import Sdg.Build.Calls

/-!
# Bodies

Visits the blocks of a function: a unit for each block, a node for each instruction, one exit for
all returns, and the edges between units.
-/

namespace Sdg

namespace Work

/-- Looks for a global behind an address. -/
def visitAddress (m : Module) (g : GraphId) (v : ValueId) : Work Unit := do
  let base ← ask (m.stripOffsets v)
  if ← ask (m.isGlobal base) then discoverGlobal m g base

/-- Gives a graph its exit. -/
def addExit (g : GraphId) (kind : ExitKind) : Work NodeId := do
  updateGraph g fun x => { x with exitUnit? := some (.fresh .exit) }
  let n ← addUnitNode g .exit (.exit (← graph g).function kind)
  updateGraph g fun x => { x with exitNode? := some n }
  return n

/-- Lets a return in block `b` flow into the exit, which is made for the first one. -/
def visitReturn (g : GraphId) (b : BlockId) (n : NodeId) : Work Unit := do
  let exit ← match (← graph g).exitNode? with
    | some exit => pure exit
    | none => addExit g .returns
  addControl n exit
  addUnitEdge g (.block b) .exit exitLabel

/-- Visits an instruction whose node is `n`, while block `b` is being visited. -/
def visitInstruction (request : FunctionId → Work GraphId) (e : Setup) (g : GraphId) (b : BlockId)
    (n : NodeId) (v : ValueId) (i : Instruction) : Work Unit := do
  match i.op with
  -- a call goes to the block that it names as its own, which need not be the one visited
  | .call callee args => visitCall request e g i.block n v callee args
  | .load address => visitAddress e.program g address
  | .getElementPtr base _ _ => visitAddress e.program g base
  | .store value address =>
    visitAddress e.program g value
    visitAddress e.program g address
  | .ret _ => visitReturn g b n
  | _ => return

/-- Visits a value that stands in block `b`. -/
def visitValue (request : FunctionId → Work GraphId) (e : Setup) (g : GraphId) (b : BlockId)
    (v : ValueId) : Work Unit := do
  let n ← addUnitNode g (.block b) (.value v)
  let i ← require (.notInstruction v b) (← ask (e.program.instruction? v))
  report (.visiting n v i.op.name)
  visitInstruction request e g b n v i

/-- Visits a block. Its unit comes first, so that calls can be recorded in it. -/
def visitBlock (request : FunctionId → Work GraphId) (e : Setup) (g : GraphId) (b : BlockId) :
    Work Unit := do
  let x ← ask (e.program.block b)
  if x.instructions.isEmpty then throw (.emptyBlock b)
  updateGraph g fun y => { y with units := y.units.insert b (.fresh (.block b)) }
  for v in x.instructions do
    visitValue request e g b v

/-- Adds the edges from block `b` to its successors, labelled by position. -/
def addSuccessors (m : Module) (g : GraphId) (b : BlockId) : Work Unit := do
  for (s, position) in (← ask (m.successors b)).zipIdx do
    if exitLabel ≤ position then throw (.tooManySuccessors b)
    -- the successor has to be a block of the same function
    let _ ← require (.foreignSuccessor s b) ((← graph g).units.get? s)
    addUnitEdge g (.block b) (.block s) position

end Work

end Sdg
