/-!
# JSON values

A `Json` keeps of a JSON text what a reader of records can ask about it. Members keep their order
and may repeat. Two things that occur in no record are kept only as "there was one": numbers that
are not written as plain digits, and strings with an escape that names half of a surrogate pair.
-/

namespace Sdg

/-- A JSON value. -/
inductive Json where
  | null
  | bool (b : Bool)
  /-- The value of a number written as plain digits; `none` for any other number. -/
  | num (value : Option Nat)
  /-- The text of a string; `none` if an escape in it names half of a surrogate pair. -/
  | str (text : Option String)
  | arr (items : List Json)
  | obj (members : List (Option String × Json))
  deriving Inhabited, Repr

namespace Json

/-- The number `n`. -/
def nat (n : Nat) : Json := .num (some n)

/-- The string `s`. -/
def text (s : String) : Json := .str (some s)

/-- An object with the given members, in this order. -/
def record (members : List (String × Json)) : Json :=
  .obj (members.map fun m => (some m.1, m.2))

/-- An object with one member: the form of a tagged payload. -/
def tagged (tag : String) (payload : Json) : Json := .obj [(some tag, payload)]

/-- A plain number below `2 ^ 32`. -/
def word? : Json → Option UInt32
  | .num (some n) => if h : n < UInt32.size then some (UInt32.ofNatLT n h) else none
  | _ => none

/-- A truth value. -/
def bool? : Json → Option Bool
  | .bool b => some b
  | _ => none

/-- A string that names a text. -/
def text? : Json → Option String
  | .str t => t
  | _ => none

/-- An array each of whose items reads as an `α`. -/
def list? {α : Type} (item? : Json → Option α) : Json → Option (List α)
  | .arr items => items.mapM item?
  | _ => none

/-- `null` for nothing, anything else as an `α`. -/
def nullable? {α : Type} (value? : Json → Option α) : Json → Option (Option α)
  | .null => some none
  | j => (value? j).map some

/-- `null` for nothing. -/
def ofOption {α : Type} (f : α → Json) : Option α → Json
  | none => .null
  | some a => f a

end Json

end Sdg
