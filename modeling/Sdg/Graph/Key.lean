import Sdg.IR.Module

/-!
# Names in dependence graphs

Nodes and graphs are named by the order in which they were created. A key says what a node or a
block of a graph stands for.
-/

namespace Sdg

/-- A node, by the order of creation among all nodes. -/
structure NodeId where
  index : Nat
  deriving DecidableEq, Repr, Inhabited

instance : ToString NodeId := ⟨fun n => "n" ++ toString n.index⟩

/-- A graph, by the order of creation among all graphs. -/
structure GraphId where
  index : Nat
  deriving DecidableEq, Repr, Inhabited

instance : ToString GraphId := ⟨fun g => "g" ++ toString g.index⟩

/-- How the exit of a function came to be. -/
inductive ExitKind where
  /-- It unites the returns of the function. -/
  | returns
  /-- The function has no return. -/
  | unreachable
  deriving DecidableEq, Repr

instance : ToString ExitKind where
  toString
    | .returns => "return"
    | .unreachable => "unreachable"

/-- What a node stands for. -/
inductive NodeKey where
  /-- A value: an instruction, a function, an argument, a global or a heap object. -/
  | value (v : ValueId)
  /-- The exit of a function. -/
  | exit (f : FunctionId) (kind : ExitKind)
  /-- The arguments that a variadic function takes beyond the declared ones. -/
  | variadic (f : FunctionId)
  deriving DecidableEq, Repr

namespace NodeKey

/-- The value that a node stands for. -/
def value? : NodeKey → Option ValueId
  | value v => some v
  | _ => none

/-- Whether no value of the program is behind a node. -/
def isArtificial (k : NodeKey) : Bool := k.value?.isNone

end NodeKey

/-- The operation of the instruction that a node stands for. -/
def Module.operation? (m : Module) (k : NodeKey) : Except Missing (Option Operation) := do
  match k.value? with
  | some v => return (← m.instruction? v).map (·.op)
  | none => return none

instance : ToString NodeKey where
  toString
    | .value v => toString v
    | .exit f kind => s!"{f}::exit({kind})"
    | .variadic f => s!"{f}::vararg"

/-- A unit of blocks within a graph. -/
inductive BlockKey where
  | block (b : BlockId)
  /-- The unit that holds nothing but the exit. -/
  | exit
  deriving DecidableEq, Repr

instance : ToString BlockKey where
  toString
    | .block b => toString b
    | .exit => "exit"

end Sdg
