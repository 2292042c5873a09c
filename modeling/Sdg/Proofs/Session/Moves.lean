import Sdg.Proofs.Building.Roots
import Sdg.Session

/-!
# What a step does

`Registry.Effect` says for each kind of step what it does to the registry and what it answers. For
most of what holds between steps that is more than need be known: a step does one of two things. It
lets the registry ripen, which is to build and to count references, or some graphs fall.

Main results:

* `Session.effect` — a step that did not fail has the effect of its kind;
* `Session.moves` — it lets the registry ripen, or some graphs fall;
* `Registry.Effect.ripens` — the steps that build let the registry ripen.
-/

namespace Sdg

open Registry

/-- What building and counting references does: changes that leave no link behind and finish all
graphs that they make. -/
structure Ripens (e : Setup) (r s : Registry) : Prop where
  changes : Changes e r s
  closed : r.Closed e.program → s.Closed e.program
  loops : (∀ g, r.Loops g) → ∀ g, s.Loops g
  old : ∀ g y, r.graph? g = some y → ∃ y', s.graph? g = some y' ∧ y'.phase = y.phase
  fresh : ∀ g y', r.graph? g = none → s.graph? g = some y' → y'.phase = .built ∧ Covered e s g y'
  collects : r.Collects e s

/-- What a step does to the registry. -/
inductive Registry.Moves (e : Setup) (r t : Registry) : Prop where
  | ripens : Ripens e r t → Moves e r t
  | falls {g : GraphId} {D : Set GraphId} : IsLeast {S | r.Falls g S} D → r.Remains D t →
      Moves e r t

variable {e : Setup} {r s t : Registry} {g : GraphId} {F : Set FunctionId}

theorem Evolves.ripens (h : Evolves e r s F) : Ripens e r s where
  changes := h.changes
  closed := h.closed
  loops := h.looping
  old g y hy := by
    obtain ⟨y', hy', hp, _⟩ := h.old g y hy
    exact ⟨y', hy', hp⟩
  fresh g y' hn hy' := by
    obtain ⟨hp, hcov, _⟩ := h.fresh g y' hn hy'
    exact ⟨hp, hcov⟩
  collects := h.collects

theorem Ripens.refl (e : Setup) (r : Registry) : Ripens e r r := (Evolves.refl e r).ripens

/-- References may be counted anew, as long as no caller is left without one. -/
theorem Ripens.recount {k : Nat → Nat} (hr : r.Orderly e.program) (h : Ripens e r s)
    (hk : ∀ y, s.graph? g = some y → k y.refcount = 0 → ∀ c, c ∉ y.callers) :
    Ripens e r (s.reviseGraph g fun y => { y with refcount := k y.refcount }) := by
  have hquiet : Quiet e.program s
      (s.reviseGraph g fun y => { y with refcount := k y.refcount }) := .recount hk
  -- counting is one more change, and a quiet one
  have hs : s.Orderly e.program := hr.changes h.changes
  have hsame : s.Collects e (s.reviseGraph g fun y => { y with refcount := k y.refcount }) :=
    .of_eq (gathered_reviseGraph s g _)
  constructor
  case changes => exact h.changes.tail (.quiet hquiet)
  case closed =>
    intro hc h' c hcalls
    have hcs := (hquiet.keepsLinks.calls c h').1 hcalls
    exact hquiet.settled hs hcs (h.closed hc h' c hcs)
  case loops =>
    intro hl h'
    have hv := variadic?_eq (formals?_reviseGraph (r := s) (g := g)
      (f := fun y => { y with refcount := k y.refcount }) (fun _ => rfl) h')
    exact (h.loops hl h').grows hquiet.grows hv
  case old =>
    intro h' y hy
    obtain ⟨y', hy', hp⟩ := h.old h' y hy
    rw [graph?_reviseGraph, hy']
    split
    · exact ⟨_, rfl, hp⟩
    · exact ⟨y', rfl, hp⟩
  case fresh =>
    intro h' y' hn hy'
    rw [graph?_reviseGraph] at hy'
    split at hy'
    · obtain ⟨z, hz, rfl⟩ := Option.map_eq_some_iff.1 hy'
      obtain ⟨hp, hcov⟩ := h.fresh h' z hn hz
      exact ⟨hp, hcov.grows hquiet.grows hsame (.of_eq rfl rfl rfl rfl fun _ h => h)⟩
    · obtain ⟨hp, hcov⟩ := h.fresh h' y' hn hy'
      exact ⟨hp, hcov.grows hquiet.grows hsame (.refl y')⟩
  case collects => exact h.collects.trans hquiet.grows hsame

/-- What no node, no graph, no lookup and no pool shows may change, but for the gathered calls. -/
theorem Ripens.unseen (hr : r.Orderly e.program) (h : Ripens e r s) (hn : t.node? = s.node?)
    (hg : t.graph? = s.graph?) (hp : t.pool = s.pool) (hf : t.lookup? = s.lookup?)
    (hgathered : t.gathered = s.gathered) : Ripens e r t := by
  have hquiet : Quiet e.program s t := .unseen hn hg hp hf
  have hs : s.Orderly e.program := hr.changes h.changes
  -- each part depends on the views, which are those of `s`, or on what was gathered
  constructor
  case changes => exact h.changes.tail (.quiet hquiet)
  case closed =>
    intro hc k c hcalls
    have hcs := (hquiet.keepsLinks.calls c k).1 hcalls
    exact hquiet.settled hs hcs (h.closed hc k c hcs)
  case loops =>
    intro hl k
    have hv : t.variadic? k = s.variadic? k := by rw [variadic?, variadic?, formals?, formals?, hg]
    exact (h.loops hl k).grows hquiet.grows hv
  case old =>
    intro k y hy
    rw [hg]
    exact h.old k y hy
  case fresh =>
    intro k y' hn' hy'
    rw [hg] at hy'
    obtain ⟨hp', hcov⟩ := h.fresh k y' hn' hy'
    exact ⟨hp', hcov.grows hquiet.grows (.of_eq hgathered) (.refl y')⟩
  case collects => exact h.collects.trans hquiet.grows (.of_eq hgathered)

/-- Graphs that have what their functions ask for keep it, and new ones have it. -/
theorem Ripens.covered (h : Ripens e r s)
    (hr : ∀ g y, r.graph? g = some y → Covered e r g y) (g : GraphId) (y' : Graph)
    (hy' : s.graph? g = some y') : Covered e s g y' := by
  cases hy : r.graph? g with
  | none => exact (h.fresh g y' hy hy').2
  | some y =>
    obtain ⟨z, hz, hgrows⟩ := h.changes.grows.graph g y hy
    rw [hy'] at hz
    cases hz
    exact (hr g y hy).grows h.changes.grows h.collects hgrows

/-! ## Steps and work -/

/-- The steps that build. -/
inductive Step.Builds : Step → Prop where
  | root (name? : Option String) : Builds (.root name?)
  | getOrBuild (f : FunctionId) : Builds (.getOrBuild f)

/-- What a step does to the registry, and what it answers. -/
inductive Registry.Effect (e : Setup) (r : Registry) : Step → Outcome → Registry → Prop where
  | held {name? : Option String} {g : GraphId} {t : Registry} :
      Work.Roots e (name?.getD e.settings.entry) r (.ok g) t →
      Effect e r (.root name?) (.graph g) t
  | refused {name? : Option String} {x : RootError} {t : Registry} :
      Work.Roots e (name?.getD e.settings.entry) r (.error x) t →
      Effect e r (.root name?) (.failed x) t
  | given {f : FunctionId} {g : GraphId} {t : Registry} : Evolves e r t {f} → t.Hosts g f →
      Effect e r (.getOrBuild f) (.graph g) t
  | retained {g : GraphId} {y : Graph} : r.graph? g = some y →
      Effect e r (.retain g) .nothing
        (r.reviseGraph g fun y => { y with refcount := y.refcount + 1 })
  | released {g : GraphId} {y : Graph} : r.graph? g = some y → 1 < y.refcount →
      Effect e r (.release g) .nothing
        (r.reviseGraph g fun y => { y with refcount := y.refcount - 1 })
  /-- The last reference is given back. -/
  | dropped {g : GraphId} {y : Graph} {D : Set GraphId} {t : Registry} :
      r.graph? g = some y → y.refcount = 1 → IsLeast {S | r.Falls g S} D → r.Remains D t →
      Effect e r (.release g) .nothing t
  /-- There is no graph to give back. -/
  | ignored {g : GraphId} : r.graph? g = none → Effect e r (.release g) .nothing r
  | destroyed {g : GraphId} {D : Set GraphId} {t : Registry} :
      IsLeast {S | r.Falls g S} D → r.Remains D t → Effect e r (.destroy g) .nothing t
  | setSettings (x : Settings) : Effect e r (.setSettings x) .nothing r
  | setPointsTo (p : PointsTo) : Effect e r (.setPointsTo p) .nothing r
  | setScopes (p : ScopeProvider) : Effect e r (.setScopes p) .nothing r

namespace Session

variable {s t : Session} {a : Step} {o : Outcome} {bad : Fault → Prop}
  {Q : Outcome → Registry → Prop}

theorem setup_of_step (h : (s.step a).2 = .ok (o, t)) : t.setup = reconfigure s.setup a := by
  unfold step at h
  revert h
  rcases (s.work a).runOn s.registry with ⟨es, f | ⟨b, r⟩⟩
  · intro h
    cases h
  · intro h
    cases h
    rfl

/-- What is shown of the work of a step is so after the step. -/
theorem of_step (hw : Work.wp bad (s.work a) Q s.registry) (h : (s.step a).2 = .ok (o, t)) :
    Q o t.registry := by
  unfold Work.wp at hw
  have hrun := hw []
  unfold step Work.runOn at h
  revert hrun h
  rcases (s.work a).run.run ⟨s.registry, []⟩ with ⟨f | b, w⟩
  · intro h _
    cases h
  · intro h hQ
    cases h
    exact hQ

/-- A step fails in a fault that its work admits. -/
theorem fault_of_step {f : Fault} (hw : Work.wp bad (s.work a) Q s.registry)
    (h : (s.step a).2 = .error f) : bad f := by
  unfold Work.wp at hw
  have hrun := hw []
  unfold step Work.runOn at h
  revert hrun h
  rcases (s.work a).run.run ⟨s.registry, []⟩ with ⟨f' | b, w⟩
  · intro h hbad
    cases h
    exact hbad
  · intro h _
    cases h

/-- A step whose work admits no fault is taken. -/
theorem exists_step (hw : Work.wp Fault.Never (s.work a) Q s.registry) :
    ∃ o r, (s.step a).2 = .ok (o, ⟨reconfigure s.setup a, r⟩) ∧ Q o r := by
  unfold Work.wp at hw
  have hrun := hw []
  unfold step Work.runOn
  revert hrun
  rcases (s.work a).run.run ⟨s.registry, []⟩ with ⟨f | b, w⟩
  · intro hf
    exact hf.elim
  · intro hQ
    exact ⟨b, w.registry, rfl, hQ⟩

theorem program_reconfigure (e : Setup) (a : Step) : (reconfigure e a).program = e.program := by
  cases a <;> rfl

theorem root_work (hr : s.registry.Orderly s.setup.program) (name? : Option String) :
    Work.wp Fault.Genuine (s.work (.root name?))
      (s.registry.Effect s.setup (.root name?)) s.registry := by
  apply Work.wp_bind (Work.constructRoot_spec hr (name?.getD s.setup.settings.entry))
  intro root? t ht
  cases root? with
  | ok g => exact Work.wp_pure (.held ht)
  | error x => exact Work.wp_pure (.refused ht)

theorem release_work (hr : s.registry.Orderly s.setup.program) (g : GraphId) :
    Work.wp Fault.Genuine (s.work (.release g))
      (s.registry.Effect s.setup (.release g)) s.registry := by
  unfold work
  cases hy : s.registry.graph? g with
  | none =>
    apply Work.wp_bind (Work.wp_fault (Work.release_of_none hy) fun _ => False.elim)
    intro _ t ht
    subst ht
    exact Work.wp_pure (.ignored hy)
  | some y =>
    -- nothing to give back is a fault, the last reference a teardown
    by_cases h0 : y.refcount = 0
    · apply Work.wp_bind (Work.wp_fault (Work.release_of_unheld hr hy h0) ?_)
      · intro _ _ hnone
        exact hnone.elim
      · intro _ hs
        subst hs
        exact nofun
    · have hpos : 1 ≤ y.refcount := by omega
      apply Work.wp_bind (Work.wp_fault (Work.release_spec hr hy hpos) fun _ => False.elim)
      intro _ t ht
      apply Work.wp_pure
      split at ht
      · rename_i h1
        obtain ⟨D, hD, hrem⟩ := ht
        exact .dropped hy h1 hD hrem
      · subst ht
        exact .released hy (by omega)

theorem destroy_work (hr : s.registry.Orderly s.setup.program) (g : GraphId) :
    Work.wp Fault.Genuine (s.work (.destroy g))
      (s.registry.Effect s.setup (.destroy g)) s.registry := by
  unfold work
  cases hy : s.registry.graph? g with
  | none =>
    apply Work.wp_bind (Work.wp_fault (Work.destroy_of_none hy) ?_)
    · intro _ _ hnone
      exact hnone.elim
    · intro _ hs
      subst hs
      exact nofun
  | some y =>
    apply Work.wp_bind (Work.wp_fault (Work.destroy_spec hr hy) fun _ => False.elim)
    intro _ t ht
    obtain ⟨D, hD, hrem⟩ := ht
    exact Work.wp_pure (.destroyed hD hrem)

/-- The work of a step is not cut off, and what it comes to is the effect of its kind. -/
theorem effect_work (hr : s.registry.Orderly s.setup.program) (a : Step) :
    Work.wp Fault.Genuine (s.work a) (s.registry.Effect s.setup a) s.registry := by
  cases a with
  | root name? => exact root_work hr name?
  | getOrBuild f =>
    apply Work.wp_bind (Work.getOrBuild_spec hr)
    intro g t ht
    exact Work.wp_pure (.given ht.1 ht.2)
  | retain g =>
    apply Work.wp_updateGraph
    intro y hy
    exact Work.wp_pure (.retained hy)
  | release g => exact release_work hr g
  | destroy g => exact destroy_work hr g
  | setSettings x => exact Work.wp_pure (.setSettings x)
  | setPointsTo p => exact Work.wp_pure (.setPointsTo p)
  | setScopes p => exact Work.wp_pure (.setScopes p)

/-- **Effects.** A step that did not fail has the effect of its kind. -/
theorem effect (hr : s.registry.Orderly s.setup.program) (h : (s.step a).2 = .ok (o, t)) :
    s.registry.Effect s.setup a o t.registry :=
  of_step (effect_work hr a) h

end Session

/-! ## Effects and moves -/

variable {a : Step} {o : Outcome}

theorem Work.Roots.ripens {name : String} {x : Except RootError GraphId}
    (hr : r.Orderly e.program) (h : Work.Roots e name r x t) : Ripens e r t := by
  cases h with
  | held _ hev _ =>
    -- one reference more is never none
    exact hev.ripens.recount (k := fun n => n + 1) hr fun _ _ h0 => absurd h0 (Nat.succ_ne_zero _)
  | refused hev hn hg hp hf hgathered _ => exact hev.ripens.unseen hr hn hg hp hf hgathered

/-- The steps that build let the registry ripen. -/
theorem Registry.Effect.ripens (hr : r.Orderly e.program) (ha : a.Builds)
    (h : r.Effect e a o t) : Ripens e r t := by
  cases ha with
  | root name? =>
    cases h with
    | held h => exact h.ripens hr
    | refused h => exact h.ripens hr
  | getOrBuild f =>
    cases h with
    | given h _ => exact h.ripens

/-- Every step lets the registry ripen, or some graphs fall. -/
theorem Registry.Effect.moves (hr : r.Orderly e.program) (h : r.Effect e a o t) :
    r.Moves e t := by
  cases h with
  | held h => exact .ripens (h.ripens hr)
  | refused h => exact .ripens (h.ripens hr)
  | given h _ => exact .ripens h.ripens
  | retained _ =>
    exact .ripens ((Ripens.refl e r).recount (k := fun n => n + 1) hr
      fun _ _ h0 => absurd h0 (Nat.succ_ne_zero _))
  | released hy h1 =>
    refine .ripens ((Ripens.refl e r).recount (k := fun n => n - 1) hr ?_)
    intro z hz hz0
    rw [hy] at hz
    cases hz
    omega
  | dropped _ _ hD hrem => exact .falls hD hrem
  | ignored _ => exact .ripens (.refl e r)
  | destroyed hD hrem => exact .falls hD hrem
  | setSettings _ => exact .ripens (.refl e r)
  | setPointsTo _ => exact .ripens (.refl e r)
  | setScopes _ => exact .ripens (.refl e r)

/-- **Moves.** A step that did not fail lets the registry ripen, or some graphs fall. -/
theorem Session.moves {s t : Session} (hr : s.registry.Orderly s.setup.program)
    (h : (s.step a).2 = .ok (o, t)) : s.registry.Moves s.setup t.registry :=
  (Session.effect hr h).moves hr

end Sdg
