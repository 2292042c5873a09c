import Sdg.Build.Construction

/-!
# Sessions

A session keeps the graphs that were built for a module, builds more of them, hands out and takes
back references, and can be set up anew in between.
-/

namespace Sdg

/-- What is given and what was built. -/
structure Session where
  setup : Setup
  registry : Registry

/-- A session on a module before its first step. -/
def Session.start (m : Module) : Session := ⟨.standard m, .empty⟩

/-- A step of a session. -/
inductive Step where
  /-- Builds the graph of the named function, or of the entry that is set. -/
  | root (name? : Option String)
  | getOrBuild (f : FunctionId)
  | retain (g : GraphId)
  | release (g : GraphId)
  | destroy (g : GraphId)
  | setSettings (s : Settings)
  | setPointsTo (p : PointsTo)
  | setScopes (s : ScopeProvider)

/-- What a step answers. -/
inductive Outcome where
  | nothing
  | graph (g : GraphId)
  | failed (e : RootError)
  deriving DecidableEq, Repr

namespace Session

/-- The work of a step on the registry. -/
def work (s : Session) : Step → Work Outcome
  | .root name? => do
    match ← Work.constructRoot s.setup (name?.getD s.setup.settings.entry) with
    | .ok g => return .graph g
    | .error e => return .failed e
  | .getOrBuild f => return .graph (← Work.getOrBuild s.setup f)
  | .retain g => do Work.retain g; return .nothing
  | .release g => do Work.release g; return .nothing
  | .destroy g => do Work.destroy g; return .nothing
  | .setSettings _ | .setPointsTo _ | .setScopes _ => return .nothing

/-- What is given after a step. -/
def reconfigure (s : Setup) : Step → Setup
  | .setSettings x => { s with settings := x }
  | .setPointsTo p => { s with pointsTo? := some p }
  | .setScopes p => { s with scopes := p }
  | _ => s

/-- Takes a step: what it reports, and what it answers with the session after it. -/
def step (s : Session) (a : Step) : List Event × Except Fault (Outcome × Session) :=
  let (events, result) := (s.work a).runOn s.registry
  (events, result.map fun (outcome, r) => (outcome, ⟨reconfigure s.setup a, r⟩))

end Session

/-- The sessions that follow from a module by steps that did not fail. -/
inductive Session.Reachable (m : Module) : Session → Prop where
  | start : Session.Reachable m (.start m)
  | step {s t : Session} {a : Step} {outcome : Outcome} :
      Session.Reachable m s → (s.step a).2 = .ok (outcome, t) → Session.Reachable m t

end Sdg
