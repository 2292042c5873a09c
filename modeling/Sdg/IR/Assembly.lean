import Sdg.IR.Describe

/-!
# Assembling modules

A module is put together by commands. Blocks are added before their instructions, so that branches
may name later ones, and a phi can get its incoming edges afterwards. Each command says what it
added.
-/

namespace Sdg

/-- Why a command cannot be carried out. -/
inductive AssemblyError where
  /-- A table has as many entries as ids can name. -/
  | tableFull (t : Table)
  /-- The command names something that does not exist. -/
  | missing (what : Missing)
  /-- The function has no parameter at this position. -/
  | noParameter (f : FunctionId) (position : Nat)
  /-- An incoming edge was given to a value that is no phi. -/
  | notPhi (v : ValueId) (found : ValueKind)
  deriving DecidableEq, Repr

/-- The wording of an error that has one. -/
def AssemblyError.message? : AssemblyError → Option String
  | notPhi v found => some (toString v ++ " is not a phi node: " ++ found.describe)
  | _ => none

namespace Module

/-- A query as part of a command. -/
def asked {α : Type} : Except Missing α → Except AssemblyError α
  | .ok a => .ok a
  | .error e => .error (.missing e)

/-- The id that the next entry of a table of this size gets. -/
def nextId (t : Table) (size : Nat) : Except AssemblyError (EntryId t) :=
  match EntryId.ofNat? size with
  | some i => .ok i
  | none => .error (.tableFull t)

/-- Adds a value. -/
def addValue (m : Module) (x : Value) : Except AssemblyError (ValueId × Module) := do
  let v ← nextId .values m.values.size
  return (v, { m with values := m.values.push x })

def addGlobal (m : Module) (name : String) (ty : Ty) : Except AssemblyError (ValueId × Module) := do
  let (v, m) ← m.addValue ⟨.global, ty, some name⟩
  return (v, { m with globals := m.globals ++ [v] })

def addConstant (m : Module) (ty : Ty) : Except AssemblyError (ValueId × Module) :=
  m.addValue ⟨.constant, ty, none⟩

def addExpr (m : Module) (e : ConstExpr) (ty : Ty) : Except AssemblyError (ValueId × Module) :=
  m.addValue ⟨.expr e, ty, none⟩

/-- Adds another name for a value, of the same type. -/
def addAlias (m : Module) (name : String) (aliasee : ValueId) :
    Except AssemblyError (ValueId × Module) := do
  let x ← asked (m.value aliasee)
  m.addValue ⟨.aliasOf aliasee, x.ty, some name⟩

/-- Adds the arguments of `f` from position `position` on. -/
def addArguments (m : Module) (f : FunctionId) (position : Nat) :
    List Ty → Except AssemblyError (List ValueId × Module)
  | [] => return ([], m)
  | ty :: tys => do
    let (v, m) ← m.addValue ⟨.argument f (UInt32.ofNat position), ty, none⟩
    let (vs, m) ← m.addArguments f (position + 1) tys
    return (v :: vs, m)

/-- Adds a function with its address and its arguments. It stays a declaration until it gets a
block. -/
def addFunction (m : Module) (name : String) (params : List Ty) (returns : Ty)
    (isVariadic : Bool) : Except AssemblyError (FunctionId × Module) := do
  let f ← nextId .functions m.functions.size
  let (v, m) ← m.addValue ⟨.function f, .ptr 0, some name⟩
  let (vs, m) ← m.addArguments f 0 params
  return (f, { m with functions := m.functions.push ⟨name, v, vs, isVariadic, returns, []⟩ })

/-- The value of a parameter. -/
def param (m : Module) (f : FunctionId) (position : Nat) : Except AssemblyError ValueId := do
  match (← asked (m.function f)).params[position]? with
  | some v => return v
  | none => throw (.noParameter f position)

/-- Adds an empty block at the end of a function. -/
def addBlock (m : Module) (f : FunctionId) (name : String) :
    Except AssemblyError (BlockId × Module) := do
  let b ← nextId .blocks m.blocks.size
  let x ← asked (m.function f)
  let functions := m.functions.setIfInBounds f.index { x with blocks := x.blocks ++ [b] }
  return (b, { m with blocks := m.blocks.push ⟨f, some name, []⟩, functions := functions })

/-- Adds an instruction at the end of a block. -/
def addInstruction (m : Module) (b : BlockId) (op : Operation) (ty : Ty) :
    Except AssemblyError (ValueId × Module) := do
  let x ← asked (m.block b)
  let (v, m) ← m.addValue ⟨.instruction ⟨x.function, b, op⟩, ty, none⟩
  let x := { x with instructions := x.instructions ++ [v] }
  return (v, { m with blocks := m.blocks.setIfInBounds b.index x })

/-- Gives a phi one more incoming edge. -/
def addIncoming (m : Module) (phi v : ValueId) (b : BlockId) : Except AssemblyError Module := do
  let x ← asked (m.value phi)
  match x.kind with
  | .instruction ⟨f, c, .phi incoming⟩ =>
    let x := { x with kind := .instruction ⟨f, c, .phi (incoming ++ [(v, b)])⟩ }
    return { m with values := m.values.setIfInBounds phi.index x }
  | found => throw (.notPhi phi found)

end Module

/-- A step of an assembly. -/
inductive Command where
  | global (name : String) (ty : Ty)
  | constant (ty : Ty)
  | expr (e : ConstExpr) (ty : Ty)
  | aliasOf (name : String) (aliasee : ValueId)
  | function (name : String) (params : List Ty) (returns : Ty) (isVariadic : Bool)
  /-- Asks for the value of a function. -/
  | functionValue (f : FunctionId)
  /-- Asks for the value of a parameter. -/
  | param (f : FunctionId) (position : Nat)
  | block (f : FunctionId) (name : String)
  | push (b : BlockId) (op : Operation) (ty : Ty)
  | incoming (phi value : ValueId) (b : BlockId)
  deriving DecidableEq, Repr

/-- What a command answers. -/
inductive Added where
  | value (v : ValueId)
  | function (f : FunctionId)
  | block (b : BlockId)
  | nothing
  deriving DecidableEq, Repr

/-- Carries out a command. -/
def Command.run (m : Module) : Command → Except AssemblyError (Added × Module)
  | global name ty => return (← m.addGlobal name ty).map .value id
  | constant ty => return (← m.addConstant ty).map .value id
  | expr e ty => return (← m.addExpr e ty).map .value id
  | aliasOf name aliasee => return (← m.addAlias name aliasee).map .value id
  | function name params returns isVariadic =>
    return (← m.addFunction name params returns isVariadic).map .function id
  | functionValue f => return (.value (← Module.asked (m.function f)).value, m)
  | param f position => return (.value (← m.param f position), m)
  | block f name => return (← m.addBlock f name).map .block id
  | push b op ty => return (← m.addInstruction b op ty).map .value id
  | incoming phi v b => return (.nothing, ← m.addIncoming phi v b)

end Sdg
