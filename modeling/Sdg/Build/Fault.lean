import Sdg.Graph.Key
import Sdg.IR.Module

/-!
# Faults

Why a construction cannot go on. Most faults name what is wrong with the module or with the request;
a fault without a wording is an id that names nothing.
-/

namespace Sdg

inductive Fault where
  /-- An id names no entry of the module. -/
  | missing (what : Missing)
  | graphGone (g : GraphId)
  | nodeGone (n : NodeId)
  /-- A reference was given back that nobody held. -/
  | unheld (g : GraphId)
  /-- The graph of a function without a body was asked for. -/
  | declaration (name : String)
  | emptyBlock (b : BlockId)
  /-- Two nodes of one graph stand for the same. -/
  | duplicate (key : NodeKey) (g : GraphId)
  | notInstruction (v : ValueId) (b : BlockId)
  | missingUnit (key : BlockKey)
  | tooManySuccessors (b : BlockId)
  /-- A successor is no block of the function. -/
  | foreignSuccessor (s b : BlockId)
  /-- An incoming block of a phi is no block of the function. -/
  | foreignIncoming (b : BlockId) (phi : NodeId)
  /-- A call may go to another name of something that is no function. -/
  | strayAlias (pointer target : ValueId)
  | noEntry (g : GraphId)
  | noEntryBlock (name : String)
  /-- A node that is no call was to be linked. -/
  | notCall (n : NodeId)
  /-- A call belongs to no graph. -/
  | ownerless (n : NodeId)
  /-- A second graph was to be made for a function. -/
  | secondGraph (f : FunctionId)
  /-- A node of one graph was to be given to another. -/
  | owned (key : NodeKey) (owner g : GraphId)
  /-- A graph was to get a second pair for variadic arguments. -/
  | secondVariadic
  /-- A node that does not stand for a call was to be linked. -/
  | notLinkable (key : NodeKey)
  | noExitUnit (name : String)
  /-- A bound on a recursion was too small. -/
  | exhausted
  deriving DecidableEq, Repr

namespace Fault

/-- The wording of a fault that has one. -/
def message? : Fault → Option String
  | missing _ | exhausted => none
  | graphGone g => violated s!"graph {g} was destroyed"
  | nodeGone n => violated s!"node {n} was freed"
  | unheld g => violated s!"unref of {g} without references"
  | declaration name => violated s!"requested a graph for declaration {name}"
  | emptyBlock b => violated s!"block {b} has no instructions"
  | duplicate key g => violated s!"{key} added to {g} twice"
  | notInstruction v b => violated s!"{v} in {b} is not an instruction"
  | missingUnit key => violated s!"missing block unit {key}"
  | tooManySuccessors b => violated s!"block {b} has more than 255 successors"
  | foreignSuccessor s b => violated s!"successor {s} of {b} was not built"
  | foreignIncoming b phi => violated s!"incoming block {b} of phi {phi} was not built"
  | strayAlias pointer target =>
    violated s!"{pointer} is an alias of {target}, which is not a function"
  | noEntry g => violated s!"{g} has no entry node"
  | noEntryBlock name => violated s!"no entry block in graph of {name}"
  | notCall n => violated s!"{n} is not a call"
  | ownerless n => violated s!"call {n} has no graph"
  | secondGraph f => violated s!"graph for {f} created twice"
  | owned key owner g =>
    violated s!"node {key} already belongs to {owner}\n  left: {shown owner}\n right: {shown g}"
  | secondVariadic => violated "vararg parameter set twice"
  | notLinkable key => violated s!"linking a subgraph to {key}, which is not a call"
  | noExitUnit name => violated s!"no exit block in graph of {name}"
where
  violated (s : String) : Option String := some ("INVARIANT VIOLATED: " ++ s)
  shown (g : GraphId) : String := s!"GraphId({g.index})"

end Fault

end Sdg
