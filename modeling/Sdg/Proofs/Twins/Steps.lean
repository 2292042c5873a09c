import Sdg.Proofs.Twins.Builds
import Sdg.Session

/-!
# Steps on registries that are alike

A step of a session is taken alike where the registries are alike: both answer the same but for
names, and leave registries that are alike, or both fail in faults that differ in names alone.

Main results:

* `Session.both_step` — the work of steps that correspond is alike;
* `Session.steps_of_both` — so the steps come out alike, if neither is cut off.
-/

namespace Sdg

/-- The same step, but for the graph that it names. -/
inductive Step.Like (ν : Naming) : Step → Step → Prop where
  | root (name? : Option String) : Like ν (.root name?) (.root name?)
  | getOrBuild (f : FunctionId) : Like ν (.getOrBuild f) (.getOrBuild f)
  | retain {g g' : GraphId} : ν.Graph g g' → Like ν (.retain g) (.retain g')
  | release {g g' : GraphId} : ν.Graph g g' → Like ν (.release g) (.release g')
  | destroy {g g' : GraphId} : ν.Graph g g' → Like ν (.destroy g) (.destroy g')
  | setSettings (x : Settings) : Like ν (.setSettings x) (.setSettings x)
  | setPointsTo (p : PointsTo) : Like ν (.setPointsTo p) (.setPointsTo p)
  | setScopes (p : ScopeProvider) : Like ν (.setScopes p) (.setScopes p)

theorem Step.Like.refl {ν : Naming} (h : ∀ g, ν.Graph g g) (a : Step) : a.Like ν a := by
  cases a with
  | root name? => exact .root name?
  | getOrBuild f => exact .getOrBuild f
  | retain g => exact .retain (h g)
  | release g => exact .release (h g)
  | destroy g => exact .destroy (h g)
  | setSettings x => exact .setSettings x
  | setPointsTo p => exact .setPointsTo p
  | setScopes p => exact .setScopes p

/-- The same answer, but for the graph that it names. -/
inductive Outcome.Like (ν : Naming) : Outcome → Outcome → Prop where
  | nothing : Like ν .nothing .nothing
  | graph {g g' : GraphId} : ν.Graph g g' → Like ν (.graph g) (.graph g')
  | failed (x : RootError) : Like ν (.failed x) (.failed x)

/-- What steps answer and leave on `r` and `s`. A root that names no function changes nothing. -/
inductive Outcome.Leaves (ρ : Likeness) (r s : Registry) :
    Outcome → Outcome → Registry → Registry → Prop where
  | nothing {t u : Registry} : ρ.Holds t u → Leaves ρ r s .nothing .nothing t u
  | graph {g g' : GraphId} {t u : Registry} : ρ.Graph g g' → ρ.Holds t u →
      Leaves ρ r s (.graph g) (.graph g') t u
  | failed (x : RootError) {t u : Registry} : ρ.Holds t u ∨ (t = r ∧ u = s) →
      Leaves ρ r s (.failed x) (.failed x) t u

theorem Outcome.Leaves.like {ρ : Likeness} {r s t u : Registry} {o o' : Outcome}
    (h : Outcome.Leaves ρ r s o o' t u) : o.Like ρ o' := by
  cases h with
  | nothing _ => exact .nothing
  | graph hg _ => exact .graph hg
  | failed x _ => exact .failed x

/-- Registries that were alike are so again. -/
theorem Outcome.Leaves.holds {ρ : Likeness} {r s t u : Registry} {o o' : Outcome}
    (hrs : ρ.Holds r s) (h : Outcome.Leaves ρ r s o o' t u) : ρ.Holds t u := by
  cases h with
  | nothing htu => exact htu
  | graph _ htu => exact htu
  | failed _ htu =>
    rcases htu with htu | ⟨rfl, rfl⟩
    · exact htu
    · exact hrs

namespace Session

variable {s s' : Session} {a a' : Step} {ν : Naming} {ρ : Likeness}
  {Q : Outcome → Outcome → Registry → Registry → Prop}

theorem both_root (hsetup : s'.setup = s.setup)
    (h : ρ.Holds (s.registry.withGlobals s.setup.program.globals)
      (s'.registry.withGlobals s.setup.program.globals)) (name? : Option String) :
    Work.Both ρ (Outcome.Leaves ρ s.registry s'.registry) (s.work (.root name?))
      (s'.work (.root name?)) s.registry s'.registry := by
  unfold work
  rw [hsetup]
  refine .bind (.constructRoot h _) fun root? root?' t u hroot => ?_
  obtain ⟨hroot, htu⟩ := hroot
  cases hroot with
  | ok hg =>
    refine .pure (.graph hg (htu.resolve_right fun hx => ?_))
    obtain ⟨_, _, _, hx⟩ := hx
    cases hx
  | error x => exact .pure (.failed x (htu.imp_right fun hx => ⟨hx.1, hx.2.1⟩))

theorem both_getOrBuild (hsetup : s'.setup = s.setup)
    (h : ρ.Holds (s.registry.withGlobals s.setup.program.globals)
      (s'.registry.withGlobals s.setup.program.globals)) (f : FunctionId) :
    Work.Both ρ (Outcome.Leaves ρ s.registry s'.registry) (s.work (.getOrBuild f))
      (s'.work (.getOrBuild f)) s.registry s'.registry := by
  unfold work
  rw [hsetup]
  exact .bind (.getOrBuild h f) fun _ _ _ _ hg => .pure (.graph hg.1 hg.2)

/-- **Steps.** The work of steps that correspond is alike where the registries are, with their
shared nodes and without. -/
theorem both_step (hsetup : s'.setup = s.setup) (h : ρ.Holds s.registry s'.registry)
    (hglobals : ρ.Holds (s.registry.withGlobals s.setup.program.globals)
      (s'.registry.withGlobals s.setup.program.globals)) (ha : a.Like ρ a') :
    Work.Both ρ (Outcome.Leaves ρ s.registry s'.registry) (s.work a) (s'.work a')
      s.registry s'.registry := by
  cases ha with
  | root name? => exact both_root hsetup hglobals name?
  | getOrBuild f => exact both_getOrBuild hsetup hglobals f
  | retain hg =>
    exact .bind (Work.Alike.retain hg _ _ h) fun _ _ _ _ ht => .pure (.nothing ht.2)
  | release hg =>
    exact .bind (Work.Alike.unref hg true _ _ h) fun _ _ _ _ ht => .pure (.nothing ht.2)
  | destroy hg =>
    exact .bind (Work.Alike.destroy hg _ _ h) fun _ _ _ _ ht => .pure (.nothing ht.2)
  | setSettings _ => exact .pure (.nothing h)
  | setPointsTo _ => exact .pure (.nothing h)
  | setScopes _ => exact .pure (.nothing h)

/-- Steps that correspond set the same. -/
theorem reconfigure_like (ha : a.Like ν a') (e : Setup) : reconfigure e a' = reconfigure e a := by
  cases ha <;> rfl

/-- What is shown of the work of two steps is so after the steps. -/
theorem steps_of_both (hw : Work.Both ν Q (s.work a) (s'.work a') s.registry s'.registry)
    (h : (s.step a).2 ≠ .error .exhausted) (h' : (s'.step a').2 ≠ .error .exhausted) :
    (∃ o t o' t', (s.step a).2 = .ok (o, ⟨reconfigure s.setup a, t⟩) ∧
      (s'.step a').2 = .ok (o', ⟨reconfigure s'.setup a', t'⟩) ∧ Q o o' t t') ∨
    ∃ f f', (s.step a).2 = .error f ∧ (s'.step a').2 = .error f' ∧ f.Like ν f' := by
  unfold Work.Both at hw
  have hends := hw [] []
  unfold step Work.runOn at h h' ⊢
  revert h h' hends
  generalize (s.work a).run.run ⟨s.registry, []⟩ = p
  generalize (s'.work a').run.run ⟨s'.registry, []⟩ = p'
  intro h h' hends
  cases hends with
  | @ok o o' t t' hQ => exact Or.inl ⟨o, t.registry, o', t'.registry, rfl, rfl, hQ⟩
  | @fault f f' _ _ hf => exact Or.inr ⟨f, f', rfl, rfl, hf⟩
  | cutLeft => exact absurd rfl h
  | cutRight => exact absurd rfl h'

end Session

end Sdg
