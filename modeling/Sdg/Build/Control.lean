import Sdg.Build.Setup
import Sdg.Build.Work

/-!
# Control dependence

Once the body of a function is complete: units that decide where control goes control the units in
their scope and, in a loop, themselves; the blocks that flow into a phi control the phi.
-/

namespace Sdg

namespace Work

/-- The units of a graph that decide where control goes. -/
def deciders (g : GraphId) : Work (List (BlockId × BlockUnit)) := do
  return (← graph g).units.entries.filter (·.2.decides)

/-- Units that decide control the units in their scope. -/
def addScopeControls (e : Setup) (g : GraphId) : Work Unit := do
  let f := (← graph g).function
  let us ← deciders g
  if us.isEmpty then return
  let scope ← ask (e.scopes e.program f)
  for (b, _) in us do
    for c in scope b do
      addUnitControl g (.block b) (.block c)

/-- The incoming edges of a phi node in block `b`: the last node of each other block that flows into
it, and the phi. -/
def phiControlsOf (m : Module) (g : GraphId) (b : BlockId) (n : NodeId) :
    Work (List (NodeId × NodeId)) := do
  match ← ask (m.operation? (← node n).key) with
  | some (.phi incoming) =>
    let x ← graph g
    (incoming.filter (·.2 ≠ b)).mapM fun (_, p) => do
      let last ← require (.foreignIncoming p n) ((x.units.get? p).bind (·.last?))
      return (last, n)
  | _ => return []

/-- The last node of each block that flows into a phi controls the phi. This takes in too much
rather than too little: a block that holds nothing but a jump still decides which value the phi
takes. -/
def addPhiControls (m : Module) (g : GraphId) : Work Unit := do
  -- all edges are worked out before the first one is added
  let edges ← (← graph g).units.entries.mapM fun (b, u) => do
    return (← u.nodes.mapM (phiControlsOf m g b)).flatten
  for (a, b) in edges.flatten do
    addControl a b

/-- Units that may go back to themselves and decide so control themselves. -/
def addLoopControls (g : GraphId) : Work Unit := do
  for (_, u) in (← deciders g).filter (·.2.hasSelfLoop) do
    addUnitControl g u.key u.key

/-- Adds all control dependence that the settings ask for. -/
def addControls (e : Setup) (g : GraphId) : Work Unit := do
  if e.settings.controlScopes then addScopeControls e g
  if e.settings.phiControl then addPhiControls e.program g
  if e.settings.selfLoops then addLoopControls g

end Work

end Sdg
