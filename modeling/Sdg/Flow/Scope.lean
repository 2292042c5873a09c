import Sdg.Collection.OrderedMap
import Sdg.Flow.PostDominance

/-!
# Control scopes

The scope of a block that decides where control goes holds the blocks whose execution is decided
there: those that are sure to run after one of its successors but not after the block itself. A
successor from which no exit can be reached stands for itself.
-/

namespace Sdg

namespace Flow

/-- What is sure to run once control is at the successor `s` of `b`, and is not sure to run at `b`.
-/
def decidedBy (p : PostDominance) (b s : BlockId) : List BlockId :=
  match p.chain s with
  | [] => [s]
  | xs =>
    let own := p.chain b
    -- in a loop the block may decide about itself
    xs.filter fun x => x = b || !own.contains x

/-- The control scope of a block, given the post-dominance of the flow; empty unless the block has
two successors. -/
def scope (g : Flow) (p : PostDominance) (b : BlockId) : List BlockId :=
  if (g.successors b).length < 2 then []
  else (OrderedSet.ofList ((g.next b).flatMap (decidedBy p b))).toList

end Flow

/-- Who tells the control scopes of the blocks of a function. What holds for the whole function is
worked out once, before the first block is asked for. -/
abbrev ScopeProvider := Module → FunctionId → Except Missing (BlockId → List BlockId)

/-- Scopes from post-dominance. -/
def postDominanceScopes : ScopeProvider := fun m f => do
  let g ← m.flow f
  let p := PostDominance.ofFlow g
  return g.scope p

/-- The scopes that were worked out so far, under the function alone: a cache is meant for one
module, and is not told for which. -/
structure ScopeCache where
  known : OrderedMap FunctionId (BlockId → List BlockId)

/-- The control scope of a block. The scopes of its function are worked out unless they are known,
and are known from then on. -/
def ScopeCache.query (c : ScopeCache) (m : Module) (f : FunctionId) (b : BlockId) :
    Except Missing (List BlockId × ScopeCache) :=
  match c.known.get? f with
  | some scope => return (scope b, c)
  | none => do
    let scope ← postDominanceScopes m f
    return (scope b, ⟨c.known.insert f scope⟩)

/-- Scopes from a table, for every function. -/
def listedScopes (table : List (BlockId × List BlockId)) : ScopeProvider := fun _ _ =>
  return fun b => (table.lookup b).getD []

end Sdg
