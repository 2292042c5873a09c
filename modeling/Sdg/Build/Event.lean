import Sdg.Graph.Key

/-!
# Events

What a construction reports while it goes on, each report with its level.
-/

namespace Sdg

inductive Level where
  | info
  | warn
  | debug
  | trace
  deriving DecidableEq, Repr

def Level.name : Level → String
  | info => "INFO"
  | warn => "WARN"
  | debug => "DEBUG"
  | trace => "TRACE"

inductive Event where
  | entryNotFound (name module : String)
  | constructing (name : String)
  | constructed (graphs nodes : Nat) (name : String)
  | building (g : GraphId) (name : String)
  | built (g : GraphId) (name : String) (nodes : Nat)
  | visiting (n : NodeId) (v : ValueId) (operation : String)
  | allocates (call : ValueId)
  /-- An indirect call was met and nobody tells where pointers point. -/
  | unresolvable (call : ValueId) (g : GraphId)
  | skipping (name : String) (call : ValueId)
  | noTarget (call : ValueId) (g : GraphId)
  | linked (call : NodeId) (caller callee : GraphId) (name : String)
  | newGlobal (v : ValueId) (g : GraphId)
  | newHeap (v : ValueId) (g : GraphId)
  /-- A graph took over parameters of another that it calls. -/
  | absorbed (g callee : GraphId)
  | released (g : GraphId) (left : Nat)
  | destroying (g : GraphId) (f : FunctionId) (nodes : Nat)
  deriving DecidableEq, Repr

namespace Event

def level : Event → Level
  | entryNotFound .. | unresolvable .. | noTarget .. => .warn
  | constructing .. | constructed .. => .info
  | building .. | built .. | linked .. | destroying .. => .debug
  | visiting .. | allocates .. | skipping .. | newGlobal .. | newHeap .. | absorbed ..
  | released .. => .trace

def text : Event → String
  | entryNotFound name mod => s!"Entry function {name} not found in {mod}"
  | constructing name => s!"Constructing dependence graph from {name}"
  | constructed graphs nodes name =>
    s!"Constructed {graphs} graphs with {nodes} nodes from {name}"
  | building g name => s!"Building graph {g} for {name}"
  | built g name nodes => s!"Built graph {g} for {name} with {nodes} nodes"
  | visiting n v operation => s!"{n}: {v} = {operation}"
  | allocates call => s!"{call} allocates a heap object"
  | unresolvable call g => s!"No points-to information for indirect call {call} in {g}"
  | skipping name call => s!"Skipping {name} as target of {call}"
  | noTarget call g => s!"Indirect call {call} in {g} has no compatible target"
  | linked call caller callee name => s!"Linked call {call} in {caller} to {callee} ({name})"
  | newGlobal v g => s!"{v} is a new global parameter of {g}"
  | newHeap v g => s!"{v} is a new heap parameter of {g}"
  | absorbed g callee => s!"{g} took over parameters of {callee}"
  | released g left => s!"unref {g}, {left} left"
  | destroying g f nodes => s!"Destroying graph {g} of {f} ({nodes} nodes)"

/-- The report as a line: its level and its text. -/
def line (e : Event) : String := e.level.name ++ " " ++ e.text

end Event

end Sdg
