import Sdg.Collection.OrderedSet
import Sdg.IR.Module

/-!
# Control flow of a function

The blocks of a function, each with the blocks where control goes next. Only edges between blocks of
the function count; a block from which control goes nowhere is an exit.
-/

namespace Sdg

/-- Distinct blocks in layout order, each with its successors. A repeated successor is listed each
time, and a successor may be a block of another function. -/
structure Flow where
  rows : List (BlockId × List BlockId)
  deriving Repr

namespace Flow

def blocks (g : Flow) : List BlockId := g.rows.map Prod.fst

/-- All successors of a block. -/
def successors (g : Flow) (b : BlockId) : List BlockId := (g.rows.lookup b).getD []

/-- The successors of a block that belong to the function. -/
def next (g : Flow) (b : BlockId) : List BlockId := (g.successors b).filter (· ∈ g.blocks)

/-- The blocks from which control goes to `t`. -/
def sources (g : Flow) (t : BlockId) : List BlockId := (g.rows.filter (·.2.contains t)).map Prod.fst

/-- The blocks from which control goes nowhere. -/
def exits (g : Flow) : List BlockId := (g.rows.filter (·.2.isEmpty)).map Prod.fst

/-- The blocks of `within` from which a path inside `within` leads to one of `ends`. Each block that
is found leaves `within`, and its sources are ends from then on. -/
def leadingTo (g : Flow) : (within ends : List BlockId) → List BlockId
  | _, [] => []
  | within, b :: ends =>
    if b ∈ within then b :: g.leadingTo (within.erase b) (g.sources b ++ ends)
    else g.leadingTo within ends
termination_by within ends => (within.length, ends.length)
-- a block that is found makes `within` shorter, any other makes `ends` shorter
decreasing_by
  · have hb : b ∈ within := by assumption
    have := List.length_pos_of_mem hb
    exact Prod.Lex.left _ _ (by rw [List.length_erase_of_mem hb]; omega)
  · exact Prod.Lex.right _ (Nat.lt_succ_self _)

/-- The blocks of `within` from which a path inside `within` leads to an exit. -/
def reachingExit (g : Flow) (within : List BlockId) : List BlockId := g.leadingTo within g.exits

end Flow

/-- The control flow of a function. -/
def Module.flow (m : Module) (f : FunctionId) : Except Missing Flow := do
  let x ← m.function f
  return ⟨← (OrderedSet.ofList x.blocks).toList.mapM fun b => return (b, ← m.successors b)⟩

end Sdg
