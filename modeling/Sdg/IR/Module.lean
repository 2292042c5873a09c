import Sdg.IR.EntryId
import Sdg.IR.Ty

/-!
# Modules

A module is a whole program in three tables: functions, blocks and values. Functions, arguments,
globals, constants and instructions are all values. Queries fail only at an id that names no entry.
-/

namespace Sdg

/-- What an instruction does. -/
inductive Operation where
  | call (callee : ValueId) (args : List ValueId)
  | ret (value : Option ValueId)
  | load (address : ValueId)
  | store (value address : ValueId)
  | getElementPtr (base : ValueId) (indices : List ValueId) (inBounds : Bool)
  | phi (incoming : List (ValueId × BlockId))
  | cast (operand : ValueId)
  | branch (target : BlockId)
  | condBranch (condition : ValueId) (ifTrue ifFalse : BlockId)
  | switch (condition : ValueId) (default : BlockId) (cases : List BlockId)
  | unreachable
  | other (opcode : String) (operands : List ValueId)
  deriving DecidableEq, Repr

namespace Operation

/-- The name of an operation. -/
def name : Operation → String
  | call .. => "call"
  | ret .. => "return"
  | load .. => "load"
  | store .. => "store"
  | getElementPtr .. => "get_element_ptr"
  | phi .. => "phi"
  | cast .. => "cast"
  | branch .. => "branch"
  | condBranch .. => "cond_branch"
  | switch .. => "switch"
  | unreachable => "unreachable"
  | other .. => "other"

/-- Where control goes next, in operand order. A repeated target is listed each time, so the
position of a target is the number of its edge. -/
def successors : Operation → List BlockId
  | branch target => [target]
  | condBranch _ ifTrue ifFalse => [ifTrue, ifFalse]
  | switch _ default cases => default :: cases
  | _ => []

/-- Every value that is read, a callee included. -/
def operands : Operation → List ValueId
  | call callee args => callee :: args
  | ret value => value.toList
  | load address => [address]
  | store value address => [value, address]
  | getElementPtr base indices _ => base :: indices
  | phi incoming => incoming.map Prod.fst
  | cast operand => [operand]
  | branch _ => []
  | condBranch condition _ _ => [condition]
  | switch condition _ _ => [condition]
  | unreachable => []
  | other _ operands => operands

/-- Every block that is named: successors, or the incoming blocks of a phi. -/
def namedBlocks : Operation → List BlockId
  | phi incoming => incoming.map Prod.snd
  | op => op.successors

/-- Whether the operation ends a block. -/
def isTerminator : Operation → Bool
  | ret .. | branch .. | condBranch .. | switch .. | unreachable => true
  | _ => false

end Operation

/-- An operation and where it stands. -/
structure Instruction where
  function : FunctionId
  block : BlockId
  op : Operation
  deriving DecidableEq, Repr

/-- Constants computed from the address of another value. -/
inductive ConstExpr where
  | cast (operand : ValueId)
  | getElementPtr (base : ValueId) (inBounds : Bool)
  deriving DecidableEq, Repr

/-- The value whose address is adjusted. -/
def ConstExpr.base : ConstExpr → ValueId
  | cast operand => operand
  | getElementPtr base _ => base

/-- What a value is. -/
inductive ValueKind where
  /-- The address of a function. -/
  | function (f : FunctionId)
  /-- A declared argument of a function. -/
  | argument (function : FunctionId) (position : UInt32)
  /-- A global variable. -/
  | global
  | constant
  /-- Another name for a value. -/
  | aliasOf (aliasee : ValueId)
  | expr (e : ConstExpr)
  | instruction (i : Instruction)
  deriving DecidableEq, Repr

structure Value where
  kind : ValueKind
  ty : Ty
  name : Option String
  deriving DecidableEq, Repr

structure Block where
  function : FunctionId
  name : Option String
  instructions : List ValueId
  deriving DecidableEq, Repr

structure Function where
  name : String
  /-- The value that stands for the address of the function. -/
  value : ValueId
  params : List ValueId
  isVariadic : Bool
  returns : Ty
  /-- The blocks in layout order, the entry block first; none for a declaration. -/
  blocks : List BlockId
  deriving DecidableEq, Repr

/-- Whether the function has a body. -/
def Function.isDefined (f : Function) : Bool := !f.blocks.isEmpty

def Function.entryBlock? (f : Function) : Option BlockId := f.blocks.head?

/-- A whole program. -/
structure Module where
  name : String
  functions : Array Function
  blocks : Array Block
  values : Array Value
  /-- The global variables, in the order of their declaration. -/
  globals : List ValueId
  deriving DecidableEq, Repr

/-- An id that names no entry of its table. -/
structure Missing where
  table : Table
  id : EntryId table
  deriving DecidableEq, Repr

namespace Module

/-- The module of the given name without entries. -/
def empty (name : String) : Module := ⟨name, #[], #[], #[], []⟩

def function (m : Module) (f : FunctionId) : Except Missing Function :=
  match m.functions[f.index]? with
  | some x => .ok x
  | none => .error ⟨.functions, f⟩

def block (m : Module) (b : BlockId) : Except Missing Block :=
  match m.blocks[b.index]? with
  | some x => .ok x
  | none => .error ⟨.blocks, b⟩

def value (m : Module) (v : ValueId) : Except Missing Value :=
  match m.values[v.index]? with
  | some x => .ok x
  | none => .error ⟨.values, v⟩

/-- The first function of the given name. -/
def functionNamed? (m : Module) (name : String) : Option FunctionId :=
  (m.functions.findIdx? (·.name = name)).bind EntryId.ofNat?

/-- The instruction that a value is, if it is one. -/
def instruction? (m : Module) (v : ValueId) : Except Missing (Option Instruction) := do
  match (← m.value v).kind with
  | .instruction i => return some i
  | _ => return none

/-- The last instruction of a block, if its last value is one. -/
def terminator? (m : Module) (b : BlockId) : Except Missing (Option Instruction) := do
  match (← m.block b).instructions.getLast? with
  | some v => m.instruction? v
  | none => return none

/-- Where control goes at the end of a block. -/
def successors (m : Module) (b : BlockId) : Except Missing (List BlockId) := do
  match ← m.terminator? b with
  | some i => return i.op.successors
  | none => return []

/-- The function whose address a value is. -/
def asFunction? (m : Module) (v : ValueId) : Except Missing (Option FunctionId) := do
  match (← m.value v).kind with
  | .function f => return some f
  | _ => return none

def isGlobal (m : Module) (v : ValueId) : Except Missing Bool := do
  match (← m.value v).kind with
  | .global => return true
  | _ => return false

/-- The name of a value. The address of a function has the name of the function. -/
def valueName? (m : Module) (v : ValueId) : Except Missing (Option String) := do
  let x ← m.value v
  match x.kind with
  | .function f => return some (← m.function f).name
  | _ => return x.name

end Module

end Sdg
