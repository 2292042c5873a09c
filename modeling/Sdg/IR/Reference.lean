import Sdg.IR.Module

/-!
# References

Every place of a module where an id stands, listed in the order of functions, blocks, globals and
values, each in stored order. A module is closed if all of them are in range; the first one that is
not is what gets reported.
-/

namespace Sdg

/-- A place where an id stands. Tables that are being listed are given by position, functions in
parameter and block lists by name. -/
inductive Reference where
  | functionValue (function : Nat) (v : ValueId)
  | parameter (function : String) (v : ValueId)
  | body (function : String) (b : BlockId)
  | owner (block : Nat) (f : FunctionId)
  | member (block : Nat) (v : ValueId)
  | global (v : ValueId)
  /-- The function that a value is or is an argument of. -/
  | valueFunction (value : Nat) (f : FunctionId)
  | aliasee (value : Nat) (v : ValueId)
  /-- The value that a constant expression adjusts. -/
  | base (value : Nat) (v : ValueId)
  /-- Where an instruction stands. -/
  | place (value : Nat) (f : FunctionId) (b : BlockId)
  | operand (value : Nat) (v : ValueId)
  | target (value : Nat) (b : BlockId)
  deriving DecidableEq, Repr

namespace Reference

/-- What is reported of a reference that is out of range. -/
def message : Reference → String
  | functionValue i v => s!"function {i} refers to missing value {v}"
  | parameter name v => s!"function {name} has missing parameter {v}"
  | body name b => s!"function {name} refers to missing block {b}"
  | owner i f => s!"block bb{i} belongs to missing function {f}"
  | member i v => s!"block bb{i} refers to missing value {v}"
  | global v => s!"missing global {v}"
  | valueFunction i f => s!"%{i} refers to missing function {f}"
  | aliasee i v => s!"%{i} aliases missing value {v}"
  | base i v => s!"%{i} refers to missing value {v}"
  | place i f b => s!"%{i} is placed in missing {f} or {b}"
  | operand i v => s!"%{i} reads missing value {v}"
  | target i b => s!"%{i} refers to missing block {b}"

/-- Whether the ids of a reference name entries of the module. -/
def inRange (m : Module) : Reference → Bool
  | functionValue _ v | parameter _ v | member _ v | global v | aliasee _ v | base _ v
  | operand _ v => v.index < m.values.size
  | body _ b | target _ b => b.index < m.blocks.size
  | owner _ f | valueFunction _ f => f.index < m.functions.size
  | place _ f b => f.index < m.functions.size && b.index < m.blocks.size

end Reference

/-- The references of the function at position `i`. -/
def Function.references (i : Nat) (f : Function) : List Reference :=
  .functionValue i f.value :: f.params.map (.parameter f.name) ++ f.blocks.map (.body f.name)

/-- The references of the block at position `i`. -/
def Block.references (i : Nat) (b : Block) : List Reference :=
  .owner i b.function :: b.instructions.map (.member i)

/-- The references of the value at position `i`. -/
def ValueKind.references (i : Nat) : ValueKind → List Reference
  | .function f | .argument f _ => [.valueFunction i f]
  | .global | .constant => []
  | .aliasOf v => [.aliasee i v]
  | .expr e => [.base i e.base]
  | .instruction ⟨f, b, op⟩ =>
    .place i f b :: op.operands.map (.operand i) ++ op.namedBlocks.map (.target i)

namespace Module

/-- All references of a module. -/
def references (m : Module) : List Reference :=
  m.functions.toList.zipIdx.flatMap (fun (f, i) => f.references i)
    ++ m.blocks.toList.zipIdx.flatMap (fun (b, i) => b.references i)
    ++ m.globals.map .global
    ++ m.values.toList.zipIdx.flatMap (fun (x, i) => x.kind.references i)

/-- The first reference that is out of range. -/
def dangling? (m : Module) : Option Reference := m.references.find? (!·.inRange m)

end Module

end Sdg
