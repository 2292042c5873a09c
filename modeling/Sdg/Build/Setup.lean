import Sdg.Flow.Scope
import Sdg.IR.Strip
import Sdg.Settings

/-!
# What a construction is given

The module, the settings, and two analyses that others supply: where pointers point, and which
blocks a decision controls.
-/

namespace Sdg

/-- Where a pointer may point. Invalid targets (null, unknown memory) are passed over. -/
structure Pointee where
  target : ValueId
  isValid : Bool
  deriving DecidableEq, Repr

/-- Who tells where pointers point. -/
abbrev PointsTo := Module → ValueId → List Pointee

/-- Pointees from a table; a value that is not listed points nowhere. -/
def listedPointees (table : List (ValueId × List Pointee)) : PointsTo := fun _ v =>
  (table.lookup v).getD []

structure Setup where
  program : Module
  settings : Settings
  pointsTo? : Option PointsTo
  scopes : ScopeProvider

namespace Setup

/-- The module with nothing special about its construction. -/
def standard (m : Module) : Setup := ⟨m, .standard, none, postDominanceScopes⟩

end Setup

namespace Module

/-- Whether each argument can be read as the parameter at its position. -/
def argumentsFit (m : Module) : List ValueId → List ValueId → Except Missing Bool
  | formal :: formals, actual :: actuals => do
    if (← m.value actual).ty.isConvertible (← m.value formal).ty then m.argumentsFit formals actuals
    else return false
  | _, _ => return true

/-- Whether the call `call` with these arguments may run the function: there are enough arguments,
each can be read as its parameter, and the result can be read as that of the call. -/
def callFits (m : Module) (f : Function) (call : ValueId) (args : List ValueId) :
    Except Missing Bool := do
  if args.length < f.params.length then return false
  if f.returns.isConvertible (← m.value call).ty then m.argumentsFit f.params args
  else return false

end Module

end Sdg
