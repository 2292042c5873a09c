import Sdg.IR.Reference
import Sdg.Json.Parser
import Sdg.Json.Record

/-!
# Modules from JSON

Reads every form in which a module may be written, and then asks whether it is closed. Of all parts
of a module only types can nest without bound; they are read with the number of containers that may
still be opened inside the ones around them.
-/

namespace Sdg

/-- How many containers may be open at once. -/
def nestingLimit : Nat := 127

def EntryId.ofJson? {t : Table} (j : Json) : Option (EntryId t) := j.word?.map EntryId.mk

namespace Ty

/-- Reads a type that may open `room` more containers. -/
def ofJson? : (room : Nat) → Json → Option Ty
  | _, .str (some tag) =>
    match tag with
    | "Void" => some void
    | "Label" => some label
    | _ => none
  | room + 1, .obj [(some tag, payload)] =>
    match tag with
    | "Void" => if payload matches .null then some void else none
    | "Label" => if payload matches .null then some label else none
    | "Integer" => payload.word?.map int
    | "Float" => payload.word?.map float
    | "Aggregate" => payload.text?.map aggregate
    | "Pointer" =>
      -- the payload is a container of its own
      match room, payload.fields? ["address_space"] with
      | _ + 1, some [some space] => space.word?.map ptr
      | _, _ => none
    | "Vector" =>
      match room with
      | inner + 1 =>
        match payload.fields? ["element", "len"] with
        | some [some element, some length] => do
          return vec (← ofJson? inner element) (← length.word?)
        | _ => none
      | 0 => none
    | _ => none
  | _, _ => none

/-- Reads a list of types that stands by itself. -/
def listOfJson? : Json → Option (List Ty) := Json.list? (ofJson? (nestingLimit - 1))

/-- Reads the text of a list of types. -/
def loadList? (text : String) : Option (List Ty) := (Json.parse? text).bind listOfJson?

end Ty

def ConstExpr.ofJson? (j : Json) : Option ConstExpr :=
  match j.variant? with
  | some ("Cast", some p) =>
    match p.fields? ["operand"] with
    | some [some operand] => (EntryId.ofJson? operand).map cast
    | _ => none
  | some ("GetElementPtr", some p) =>
    match p.fields? ["base", "in_bounds"] with
    | some [some base, some inBounds] => do
      return getElementPtr (← EntryId.ofJson? base) (← inBounds.bool?)
    | _ => none
  | _ => none

/-- One incoming edge of a phi: a value and the block that it comes from. -/
def incoming? : Json → Option (ValueId × BlockId)
  | .arr [v, b] => do return (← EntryId.ofJson? v, ← EntryId.ofJson? b)
  | _ => none

def Operation.ofJson? (j : Json) : Option Operation :=
  match j.variant? with
  | some ("Unreachable", p) => if Json.isNoPayload p then some unreachable else none
  | some ("Call", some p) =>
    match p.fields? ["callee", "args"] with
    | some [some callee, some args] => do
      return call (← EntryId.ofJson? callee) (← args.list? EntryId.ofJson?)
    | _ => none
  | some ("Return", some p) =>
    match p.fields? ["value"] with
    | some [value] => (Json.optionalField? EntryId.ofJson? value).map ret
    | _ => none
  | some ("Load", some p) =>
    match p.fields? ["address"] with
    | some [some address] => (EntryId.ofJson? address).map load
    | _ => none
  | some ("Store", some p) =>
    match p.fields? ["value", "address"] with
    | some [some value, some address] => do
      return store (← EntryId.ofJson? value) (← EntryId.ofJson? address)
    | _ => none
  | some ("GetElementPtr", some p) =>
    match p.fields? ["base", "indices", "in_bounds"] with
    | some [some base, some indices, some inBounds] => do
      return getElementPtr (← EntryId.ofJson? base) (← indices.list? EntryId.ofJson?)
        (← inBounds.bool?)
    | _ => none
  | some ("Phi", some p) =>
    match p.fields? ["incoming"] with
    | some [some incoming] => (incoming.list? incoming?).map phi
    | _ => none
  | some ("Cast", some p) =>
    match p.fields? ["operand"] with
    | some [some operand] => (EntryId.ofJson? operand).map cast
    | _ => none
  | some ("Branch", some p) =>
    match p.fields? ["target"] with
    | some [some target] => (EntryId.ofJson? target).map branch
    | _ => none
  | some ("CondBranch", some p) =>
    match p.fields? ["condition", "if_true", "if_false"] with
    | some [some condition, some ifTrue, some ifFalse] => do
      return condBranch (← EntryId.ofJson? condition) (← EntryId.ofJson? ifTrue)
        (← EntryId.ofJson? ifFalse)
    | _ => none
  | some ("Switch", some p) =>
    match p.fields? ["condition", "default", "cases"] with
    | some [some condition, some default, some cases] => do
      return switch (← EntryId.ofJson? condition) (← EntryId.ofJson? default)
        (← cases.list? EntryId.ofJson?)
    | _ => none
  | some ("Other", some p) =>
    match p.fields? ["opcode", "operands"] with
    | some [some opcode, some operands] => do
      return other (← opcode.text?) (← operands.list? EntryId.ofJson?)
    | _ => none
  | _ => none

def Instruction.ofJson? (j : Json) : Option Instruction :=
  match j.fields? ["function", "block", "kind"] with
  | some [some function, some block, some op] => do
    return ⟨← EntryId.ofJson? function, ← EntryId.ofJson? block, ← Operation.ofJson? op⟩
  | _ => none

def ValueKind.ofJson? (j : Json) : Option ValueKind :=
  match j.variant? with
  | some ("Global", p) => if Json.isNoPayload p then some global else none
  | some ("Constant", p) => if Json.isNoPayload p then some constant else none
  | some ("Function", some p) => (EntryId.ofJson? p).map function
  | some ("Argument", some p) =>
    match p.fields? ["function", "index"] with
    | some [some f, some position] => do return argument (← EntryId.ofJson? f) (← position.word?)
    | _ => none
  | some ("Alias", some p) =>
    match p.fields? ["aliasee"] with
    | some [some aliasee] => (EntryId.ofJson? aliasee).map aliasOf
    | _ => none
  | some ("ConstantExpr", some p) => (ConstExpr.ofJson? p).map expr
  | some ("Instruction", some p) => (Instruction.ofJson? p).map instruction
  | _ => none

/-- How many containers may still be opened by a type in a table of a module: the module, the table
and the entry are open around it. -/
def tableTypeRoom : Nat := nestingLimit - 3

def Value.ofJson? (j : Json) : Option Value :=
  match j.fields? ["kind", "ty", "name"] with
  | some [some kind, some ty, name] => do
    return ⟨← ValueKind.ofJson? kind, ← Ty.ofJson? tableTypeRoom ty,
      ← Json.optionalField? Json.text? name⟩
  | _ => none

def Block.ofJson? (j : Json) : Option Block :=
  match j.fields? ["function", "name", "instructions"] with
  | some [some function, name, some instructions] => do
    return ⟨← EntryId.ofJson? function, ← Json.optionalField? Json.text? name,
      ← instructions.list? EntryId.ofJson?⟩
  | _ => none

def Function.ofJson? (j : Json) : Option Function :=
  match j.fields? ["name", "value", "params", "var_arg", "return_type", "blocks"] with
  | some [some name, some value, some params, some isVariadic, some returns, some blocks] => do
    return ⟨← name.text?, ← EntryId.ofJson? value, ← params.list? EntryId.ofJson?,
      ← isVariadic.bool?, ← Ty.ofJson? tableTypeRoom returns, ← blocks.list? EntryId.ofJson?⟩
  | _ => none

namespace Module

/-- Reads a module, closed or not. -/
def ofJson? (j : Json) : Option Module :=
  match j.fields? ["name", "functions", "blocks", "values", "globals"] with
  | some [some name, some functions, some blocks, some values, some globals] => do
    return ⟨← name.text?, (← functions.list? Function.ofJson?).toArray,
      (← blocks.list? Block.ofJson?).toArray, (← values.list? Value.ofJson?).toArray,
      ← globals.list? EntryId.ofJson?⟩
  | _ => none

/-- Why a text is no module. -/
inductive LoadError where
  /-- The text is not JSON or not of the shape of a module. -/
  | malformed
  /-- An id is out of range; this is the first. -/
  | dangling (r : Reference)
  deriving DecidableEq, Repr

/-- Reads a closed module. -/
def fromJson (j : Json) : Except LoadError Module :=
  match ofJson? j with
  | none => .error .malformed
  | some m =>
    match m.dangling? with
    | some r => .error (.dangling r)
    | none => .ok m

/-- Reads the text of a closed module. -/
def load (text : String) : Except LoadError Module :=
  match Json.parse? text with
  | none => .error .malformed
  | some j => fromJson j

end Module

end Sdg
