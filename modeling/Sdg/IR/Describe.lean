import Sdg.IR.Module
import Sdg.Text.Quoted

/-!
# Descriptions of values

A value is described in full by the name of what it is and by everything it holds: single contents
in parentheses, named ones in braces, lists in brackets.
-/

namespace Sdg

/-- A constructor name with named contents. -/
def describeFields (name : String) (fields : List (String × String)) : String :=
  name ++ " \x7b " ++ ", ".intercalate (fields.map fun (n, s) => n ++ ": " ++ s) ++ " \x7d"

/-- A constructor name with one content. -/
def describeWrapped (name content : String) : String := name ++ "(" ++ content ++ ")"

def describeList {α : Type} (f : α → String) (xs : List α) : String :=
  "[" ++ ", ".intercalate (xs.map f) ++ "]"

def describeBool (b : Bool) : String := if b then "true" else "false"

/-- What an entry of a table is called. -/
def Table.entryName : Table → String
  | .functions => "FunctionId"
  | .blocks => "BlockId"
  | .values => "ValueId"

def EntryId.describe {t : Table} (i : EntryId t) : String :=
  describeWrapped t.entryName (toString i.index)

def Operation.describe : Operation → String
  | call callee args =>
    describeFields "Call"
      [("callee", callee.describe), ("args", describeList EntryId.describe args)]
  | ret value =>
    describeFields "Return"
      [("value", (value.map fun v => describeWrapped "Some" v.describe).getD "None")]
  | load address => describeFields "Load" [("address", address.describe)]
  | store value address =>
    describeFields "Store" [("value", value.describe), ("address", address.describe)]
  | getElementPtr base indices inBounds =>
    describeFields "GetElementPtr" [("base", base.describe),
      ("indices", describeList EntryId.describe indices), ("in_bounds", describeBool inBounds)]
  | phi incoming =>
    describeFields "Phi" [("incoming",
      describeList (fun e => "(" ++ e.1.describe ++ ", " ++ e.2.describe ++ ")") incoming)]
  | cast operand => describeFields "Cast" [("operand", operand.describe)]
  | branch target => describeFields "Branch" [("target", target.describe)]
  | condBranch condition ifTrue ifFalse =>
    describeFields "CondBranch" [("condition", condition.describe), ("if_true", ifTrue.describe),
      ("if_false", ifFalse.describe)]
  | switch condition default cases =>
    describeFields "Switch" [("condition", condition.describe), ("default", default.describe),
      ("cases", describeList EntryId.describe cases)]
  | unreachable => "Unreachable"
  | other opcode operands =>
    describeFields "Other" [("opcode", quotedText opcode),
      ("operands", describeList EntryId.describe operands)]

def ConstExpr.describe : ConstExpr → String
  | cast operand => describeFields "Cast" [("operand", operand.describe)]
  | getElementPtr base inBounds =>
    describeFields "GetElementPtr"
      [("base", base.describe), ("in_bounds", describeBool inBounds)]

def ValueKind.describe : ValueKind → String
  | function f => describeWrapped "Function" f.describe
  | argument f position =>
    describeFields "Argument"
      [("function", f.describe), ("index", toString position.toNat)]
  | global => "Global"
  | constant => "Constant"
  | aliasOf aliasee => describeFields "Alias" [("aliasee", aliasee.describe)]
  | expr e => describeWrapped "ConstantExpr" e.describe
  | instruction ⟨f, b, op⟩ =>
    describeWrapped "Instruction" (describeFields "Instruction"
      [("function", f.describe), ("block", b.describe), ("kind", op.describe)])

end Sdg
