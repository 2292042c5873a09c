import Sdg.Json.Basic

/-!
# Records and variants in JSON

A record is an object or an array of all its fields in their fixed order. In an object, members
under other names are passed over, a field may stand once only, and some fields may be left out. A
variant is an object whose one member is named after it; a variant without payload may also be its
bare name.
-/

namespace Sdg.Json

/-- The fields of a record, in the order of `names`; `none` stands for a field that is left out. -/
def fields? (names : List String) : Json → Option (List (Option Json))
  | .arr items => if items.length = names.length then some (items.map some) else none
  | .obj members =>
    if members.all (·.1.isSome) && names.all fun n => (members.map (·.1)).count (some n) ≤ 1 then
      some (names.map fun n => members.lookup (some n))
    else none
  | _ => none

/-- A field that may be left out or `null`. -/
def optionalField? {α : Type} (value? : Json → Option α) : Option Json → Option (Option α)
  | none => some none
  | some j => j.nullable? value?

/-- The name and the payload of a variant. -/
def variant? : Json → Option (String × Option Json)
  | .str (some tag) => some (tag, none)
  | .obj [(some tag, payload)] => some (tag, some payload)
  | _ => none

/-- Whether the payload of a variant without content is written as it should be. -/
def isNoPayload : Option Json → Bool
  | none | some .null => true
  | _ => false

end Sdg.Json
