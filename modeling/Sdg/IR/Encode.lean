import Sdg.IR.Module
import Sdg.Json.Basic

/-!
# Modules as JSON

Records become objects with all their fields, variants become objects with one member, and variants
without content become their bare name. Ids are plain numbers.
-/

namespace Sdg

def EntryId.toJson {t : Table} (i : EntryId t) : Json := .nat i.index

namespace Ty

def toJson : Ty → Json
  | void => .text "Void"
  | int bits => .tagged "Integer" (.nat bits.toNat)
  | float bits => .tagged "Float" (.nat bits.toNat)
  | ptr space => .tagged "Pointer" (.record [("address_space", .nat space.toNat)])
  | vec element length =>
    .tagged "Vector" (.record [("element", element.toJson), ("len", .nat length.toNat)])
  | aggregate name => .tagged "Aggregate" (.text name)
  | label => .text "Label"

end Ty

def idsToJson {t : Table} (is : List (EntryId t)) : Json := .arr (is.map EntryId.toJson)

def Operation.toJson : Operation → Json
  | call callee args =>
    .tagged "Call" (.record [("callee", callee.toJson), ("args", idsToJson args)])
  | ret value => .tagged "Return" (.record [("value", .ofOption EntryId.toJson value)])
  | load address => .tagged "Load" (.record [("address", address.toJson)])
  | store value address =>
    .tagged "Store" (.record [("value", value.toJson), ("address", address.toJson)])
  | getElementPtr base indices inBounds =>
    .tagged "GetElementPtr" (.record
      [("base", base.toJson), ("indices", idsToJson indices), ("in_bounds", .bool inBounds)])
  | phi incoming =>
    .tagged "Phi" (.record
      [("incoming", .arr (incoming.map fun e => .arr [e.1.toJson, e.2.toJson]))])
  | cast operand => .tagged "Cast" (.record [("operand", operand.toJson)])
  | branch target => .tagged "Branch" (.record [("target", target.toJson)])
  | condBranch condition ifTrue ifFalse =>
    .tagged "CondBranch" (.record
      [("condition", condition.toJson), ("if_true", ifTrue.toJson), ("if_false", ifFalse.toJson)])
  | switch condition default cases =>
    .tagged "Switch" (.record
      [("condition", condition.toJson), ("default", default.toJson), ("cases", idsToJson cases)])
  | unreachable => .text "Unreachable"
  | other opcode operands =>
    .tagged "Other" (.record [("opcode", .text opcode), ("operands", idsToJson operands)])

def ConstExpr.toJson : ConstExpr → Json
  | cast operand => .tagged "Cast" (.record [("operand", operand.toJson)])
  | getElementPtr base inBounds =>
    .tagged "GetElementPtr" (.record [("base", base.toJson), ("in_bounds", .bool inBounds)])

def Instruction.toJson (i : Instruction) : Json :=
  .record [("function", i.function.toJson), ("block", i.block.toJson), ("kind", i.op.toJson)]

def ValueKind.toJson : ValueKind → Json
  | function f => .tagged "Function" f.toJson
  | argument f position =>
    .tagged "Argument" (.record [("function", f.toJson), ("index", .nat position.toNat)])
  | global => .text "Global"
  | constant => .text "Constant"
  | aliasOf aliasee => .tagged "Alias" (.record [("aliasee", aliasee.toJson)])
  | expr e => .tagged "ConstantExpr" e.toJson
  | instruction i => .tagged "Instruction" i.toJson

def Value.toJson (x : Value) : Json :=
  .record [("kind", x.kind.toJson), ("ty", x.ty.toJson), ("name", .ofOption .text x.name)]

def Block.toJson (b : Block) : Json :=
  .record [("function", b.function.toJson), ("name", .ofOption .text b.name),
    ("instructions", idsToJson b.instructions)]

def Function.toJson (f : Function) : Json :=
  .record [("name", .text f.name), ("value", f.value.toJson), ("params", idsToJson f.params),
    ("var_arg", .bool f.isVariadic), ("return_type", f.returns.toJson),
    ("blocks", idsToJson f.blocks)]

def Module.toJson (m : Module) : Json :=
  .record [("name", .text m.name),
    ("functions", .arr (m.functions.toList.map Function.toJson)),
    ("blocks", .arr (m.blocks.toList.map Block.toJson)),
    ("values", .arr (m.values.toList.map Value.toJson)),
    ("globals", idsToJson m.globals)]

end Sdg
