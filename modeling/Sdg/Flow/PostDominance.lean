import Sdg.Flow.Basic

/-!
# Post-dominance

A block `x` post-dominates a block `s` if `s` gets to an exit and each path on which it does passes
through `x`. The post-dominators of a block form a chain, ordered by who comes first on those paths.
-/

namespace Sdg

namespace Flow

/-- The blocks that `x` post-dominates: those that get to an exit, but not without `x`. -/
def postDominated (g : Flow) (reaching : List BlockId) (x : BlockId) : List BlockId :=
  -- who gets to an exit once `x` is taken out
  let without := g.reachingExit (g.blocks.erase x)
  reaching.filter fun s => !without.contains s

end Flow

/-- The post-dominance of a flow. -/
structure PostDominance where
  /-- Each block with the blocks that it post-dominates. What post-dominates `x` also post-dominates
  all that `x` does and itself, so by their number a block comes before its post-dominators. -/
  areas : List (BlockId × List BlockId)
  deriving Repr

namespace PostDominance

def ofFlow (g : Flow) : PostDominance :=
  let reaching := g.reachingExit g.blocks
  -- the fewer blocks one post-dominates, the nearer it is to them
  ⟨(g.blocks.map fun x => (x, g.postDominated reaching x)).mergeSort fun a b =>
    a.2.length ≤ b.2.length⟩

/-- The post-dominators of `s` from `s` on towards the exits; none if `s` gets to no exit. -/
def chain (p : PostDominance) (s : BlockId) : List BlockId :=
  (p.areas.filter (·.2.contains s)).map Prod.fst

end PostDominance

end Sdg
