import Sdg.IR.Module

/-!
# Stripping

Aliases, casts and, if asked for, in-bounds address computations stand for the value that they
adjust. Stripping walks to the end of such a chain. A chain longer than the table of values runs in
a circle, so the walk is cut off there.
-/

namespace Sdg

/-- The value that a value of this kind adjusts. With `offsets`, in-bounds address computations
count as adjustments. -/
def ValueKind.adjusted? (offsets : Bool) : ValueKind → Option ValueId
  | .aliasOf aliasee => some aliasee
  | .expr (.cast operand) => some operand
  | .expr (.getElementPtr base inBounds) => if offsets && inBounds then some base else none
  | .instruction ⟨_, _, .cast operand⟩ => some operand
  | .instruction ⟨_, _, .getElementPtr base _ inBounds⟩ =>
    if offsets && inBounds then some base else none
  | _ => none

namespace Module

/-- Walks at most `steps` steps from `v` along adjusted values. -/
def stripWithin (m : Module) (offsets : Bool) : Nat → ValueId → Except Missing ValueId
  | 0, v => return v
  | steps + 1, v => do
    match (← m.value v).kind.adjusted? offsets with
    | some next => m.stripWithin offsets steps next
    | none => return v

/-- The end of the chain of adjusted values from `v`. -/
def strip (m : Module) (offsets : Bool) (v : ValueId) : Except Missing ValueId :=
  m.stripWithin offsets (m.values.size + 1) v

/-- Follows casts and aliases to the value that they wrap. -/
def stripCasts (m : Module) (v : ValueId) : Except Missing ValueId := m.strip false v

/-- Follows casts, aliases and in-bounds address computations to the base object. -/
def stripOffsets (m : Module) (v : ValueId) : Except Missing ValueId := m.strip true v

end Module

end Sdg
