import Sdg.Collection.OrderedMap
import Sdg.Graph.Key

/-!
# Parameters

A parameter is a pair of nodes, one for what comes in and one for what goes out. A function has
formal parameters and a call has actual ones. Global variables are kept apart from declared
arguments and heap objects, but no value is a parameter twice.
-/

namespace Sdg

/-- The two nodes of a parameter. A formal parameter takes its value in through `input` and hands it
back through `output`; for an actual parameter it is the other way around. -/
structure ParameterPair where
  input : NodeId
  output : NodeId
  deriving DecidableEq, Repr

/-- The parameters of a function or of a call. -/
structure Parameters where
  /-- Declared arguments, and heap objects under the call that allocates them. -/
  own : OrderedMap ValueId ParameterPair
  globals : OrderedMap ValueId ParameterPair
  variadic? : Option ParameterPair

namespace Parameters

def empty : Parameters := ⟨.empty, .empty, none⟩

instance : Inhabited Parameters := ⟨empty⟩

/-- The pair under `v`. -/
def find? (p : Parameters) (v : ValueId) : Option ParameterPair :=
  (p.own.get? v).or (p.globals.get? v)

/-- The pair under the global `v`. -/
def findGlobal? (p : Parameters) (v : ValueId) : Option ParameterPair := p.globals.get? v

/-- Whether `v` is a parameter. -/
def contains (p : Parameters) (v : ValueId) : Bool := p.own.contains v || p.globals.contains v

/-- The number of parameters. -/
def size (p : Parameters) : Nat := p.own.size + p.globals.size + p.variadic?.toList.length

/-- All pairs: own ones, globals, and the variadic one. -/
def pairs (p : Parameters) : List ParameterPair :=
  p.own.values ++ p.globals.values ++ p.variadic?.toList

/-- The nodes of all pairs, input before output. -/
def nodes (p : Parameters) : List NodeId := p.pairs.flatMap fun q => [q.input, q.output]

/-- Makes `v` an own parameter, unless it is a parameter already. -/
def addOwn (p : Parameters) (v : ValueId) (q : ParameterPair) : Parameters :=
  if p.contains v then p else { p with own := p.own.insert v q }

/-- Makes `v` a global parameter, unless it is a parameter already. -/
def addGlobal (p : Parameters) (v : ValueId) (q : ParameterPair) : Parameters :=
  if p.contains v then p else { p with globals := p.globals.insert v q }

/-- Makes `q` the variadic pair; none if there is one already. -/
def setVariadic? (p : Parameters) (q : ParameterPair) : Option Parameters :=
  if p.variadic?.isNone then some { p with variadic? := some q } else none

end Parameters

end Sdg
