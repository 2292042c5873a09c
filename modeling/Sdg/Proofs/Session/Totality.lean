import Sdg.Proofs.Assembled
import Sdg.Proofs.Session.Teardown
import Sdg.Proofs.Session.Verification

/-!
# Totality

A step fails only where what was given is to blame for it. Modules that commands put together, with
all ids in range and with bodies that keep control to themselves, are never to blame, nor are the
scopes of post-dominance or an oracle that says nothing the module has no answer to. Where a run
asks only for what can be asked for, all its steps are taken, whatever was torn down before.

Main results:

* `Session.Proper.sane` — nothing that was given on such a run is to blame;
* `Session.Proper.step_taken` — so all its steps are taken, and leave all graphs built.
-/

namespace Sdg

open Registry

/-- Modules that commands put together are sane if their bodies are contained. -/
theorem Module.Assembled.sane {m : Module} (ha : m.Assembled) (hc : m.IsClosed)
    (hb : m.Contained) : m.Sane where
  toContained := hb
  closed := hc
  named f x hx := by
    obtain ⟨v, hv, hk⟩ := ha.tidy.named f x hx
    simp [instruction?, hv, hk, bind, Except.bind, pure, Except.pure]
  placed b y v hy hv := by
    obtain ⟨x, i, hx, hk, hi⟩ := ha.tidy.placed b y v hy hv
    exact ⟨i, by simp [instruction?, hx, hk, bind, Except.bind, pure, Except.pure], hi⟩
  distinct := ha.tidy.distinct
  distinctBlocks := ha.tidy.distinctBlocks

/-- The graph that a root is given is that of the function. -/
theorem Registry.Effect.hosts_of_root {e : Setup} {r t : Registry} {name? : Option String}
    {g : GraphId} {f : FunctionId} (h : r.Effect e (.root name?) (.graph g) t)
    (hname : e.program.functionNamed? (name?.getD e.settings.entry) = some f) : t.Hosts g f := by
  cases h with
  | held h =>
    cases h with
    | held hname' _ hhosts =>
      obtain rfl := Option.some.inj (hname.symm.trans hname')
      exact Iff.mpr (hosts_reviseGraph fun _ => rfl) hhosts

/-- Commands for a module to look at: `ping` hands an object to `pong`, which calls `ping`. -/
def pingPongCommands : List Command :=
  [.function "ping" [] .void false, .function "pong" [.ptr 0] .void false, .block ⟨0⟩ "entry",
    .block ⟨0⟩ "done", .block ⟨1⟩ "entry", .push ⟨0⟩ (.other "alloca" []) (.ptr 0),
    .push ⟨0⟩ (.call ⟨1⟩ [⟨3⟩]) .void, .push ⟨0⟩ (.branch ⟨1⟩) .void, .push ⟨1⟩ (.phi []) (.ptr 0),
    .incoming ⟨6⟩ ⟨3⟩ ⟨0⟩, .push ⟨1⟩ (.ret none) .void, .push ⟨2⟩ (.call ⟨0⟩ []) .void,
    .push ⟨2⟩ (.ret none) .void]

/-- The module that they make. -/
def Module.pingPong : Module where
  name := "ping pong"
  functions := #[⟨"ping", ⟨0⟩, [], false, .void, [⟨0⟩, ⟨1⟩]⟩,
    ⟨"pong", ⟨1⟩, [⟨2⟩], false, .void, [⟨2⟩]⟩]
  blocks := #[⟨⟨0⟩, some "entry", [⟨3⟩, ⟨4⟩, ⟨5⟩]⟩, ⟨⟨0⟩, some "done", [⟨6⟩, ⟨7⟩]⟩,
    ⟨⟨1⟩, some "entry", [⟨8⟩, ⟨9⟩]⟩]
  values := #[⟨.function ⟨0⟩, .ptr 0, some "ping"⟩, ⟨.function ⟨1⟩, .ptr 0, some "pong"⟩,
    ⟨.argument ⟨1⟩ 0, .ptr 0, none⟩, ⟨.instruction ⟨⟨0⟩, ⟨0⟩, .other "alloca" []⟩, .ptr 0, none⟩,
    ⟨.instruction ⟨⟨0⟩, ⟨0⟩, .call ⟨1⟩ [⟨3⟩]⟩, .void, none⟩,
    ⟨.instruction ⟨⟨0⟩, ⟨0⟩, .branch ⟨1⟩⟩, .void, none⟩,
    ⟨.instruction ⟨⟨0⟩, ⟨1⟩, .phi [(⟨3⟩, ⟨0⟩)]⟩, .ptr 0, none⟩,
    ⟨.instruction ⟨⟨0⟩, ⟨1⟩, .ret none⟩, .void, none⟩,
    ⟨.instruction ⟨⟨1⟩, ⟨2⟩, .call ⟨0⟩ []⟩, .void, none⟩,
    ⟨.instruction ⟨⟨1⟩, ⟨2⟩, .ret none⟩, .void, none⟩]
  globals := []

namespace Session

variable {m : Module} {s t : Session} {a : Step} {o : Outcome}

/-- Whether a step asks only for what there is. Graphs are asked for functions with a body, live
graphs are held and torn down, references are given back that somebody holds, and the analyses are
exchanged for ones that are as good. -/
def Permits (s : Session) : Step → Prop
  | .root _ => True
  | .getOrBuild f => s.setup.program.Defines f
  | .retain g => ∃ y, s.registry.graph? g = some y
  | .release g => ∀ y, s.registry.graph? g = some y → 1 ≤ y.refcount
  | .destroy g => ∃ y, s.registry.graph? g = some y
  | .setSettings _ => True
  | .setPointsTo p => p.Safe s.setup.program
  | .setScopes p => p = postDominanceScopes

/-- The sessions that follow from a module by permitted steps. -/
inductive Proper (m : Module) : Session → Prop where
  | start : Proper m (.start m)
  | step {s t : Session} {a : Step} {o : Outcome} : Proper m s → s.Permits a →
      (s.step a).2 = .ok (o, t) → Proper m t

/-! ## Setups -/

/-- A permitted step leaves nothing to blame in what is given. -/
theorem Permits.sane (hp : s.Permits a) (h : s.setup.Sane) : (reconfigure s.setup a).Sane := by
  cases a with
  | setSettings x => exact ⟨h.program, h.scopes, h.pointsTo⟩
  | setPointsTo p => exact ⟨h.program, h.scopes, fun q hq => Option.some.inj hq ▸ hp⟩
  | setScopes p => exact ⟨h.program, hp, h.pointsTo⟩
  | _ => exact h

theorem Proper.reachable (hs : Session.Proper m s) : Session.Reachable m s := by
  induction hs with
  | start => exact .start
  | step _ _ hstep ih => exact .step ih hstep

theorem Proper.sane (hm : m.Sane) (hs : Session.Proper m s) : s.setup.Sane := by
  induction hs with
  | start => exact ⟨hm, rfl, nofun⟩
  | step _ hp hstep ih =>
    rw [setup_of_step hstep]
    exact hp.sane ih

/-! ## Steps -/

section

variable (hr : s.registry.Complete s.setup.program) (h : s.setup.Sane)

include hr h

/-- A root of a function with a body is given the graph of that function. -/
theorem root_taken (name? : Option String) : ∃ o t, (s.step (.root name?)).2 = .ok (o, t) ∧
    ∀ f, s.setup.program.functionNamed? (name?.getD s.setup.settings.entry) = some f →
      s.setup.program.Defines f → ∃ g, o = .graph g := by
  have hw : Work.wp Fault.Never (s.work (.root name?)) (fun o _ =>
      ∀ f, s.setup.program.functionNamed? (name?.getD s.setup.settings.entry) = some f →
        s.setup.program.Defines f → ∃ g, o = .graph g) s.registry := by
    refine Work.wp_bind (Work.wp_fault (Work.constructRoot_complete hr _) fun _ hf => hf.2 h) ?_
    intro root? t hpost
    cases root? with
    | ok g => exact Work.wp_pure fun _ _ _ => ⟨g, rfl⟩
    | error x =>
      refine Work.wp_pure fun f hf hdef => ?_
      obtain ⟨g, hg⟩ := hpost.2 f hf hdef
      cases hg
  obtain ⟨o, t, hstep, hpost⟩ := exists_step hw
  exact ⟨o, _, hstep, hpost⟩

theorem getOrBuild_taken {f : FunctionId} (hf : s.setup.program.Defines f) :
    ∃ o t, (s.step (.getOrBuild f)).2 = .ok (o, t) := by
  have hw : Work.wp Fault.Never (s.work (.getOrBuild f)) (fun _ _ => True) s.registry :=
    Work.wp_bind (Work.wp_fault (Work.getOrBuild_complete hr fun _ => hf) fun _ hf => hf.2 h)
      fun _ _ _ => Work.wp_pure trivial
  obtain ⟨o, t, hstep, -⟩ := exists_step hw
  exact ⟨o, _, hstep⟩

end

theorem retain_taken {g : GraphId} {y : Graph} (hy : s.registry.graph? g = some y) :
    ∃ o t, (s.step (.retain g)).2 = .ok (o, t) := by
  have hw : Work.wp Fault.Never (s.work (.retain g)) (fun _ _ => True) s.registry :=
    Work.wp_updateGraph_live hy (Work.wp_pure trivial)
  obtain ⟨o, t, hstep, -⟩ := exists_step hw
  exact ⟨o, _, hstep⟩

/-- A permitted step is taken. -/
theorem Permits.taken (hp : s.Permits a) (hr : s.registry.Complete s.setup.program)
    (h : s.setup.Sane) : ∃ o t, (s.step a).2 = .ok (o, t) := by
  cases a with
  | root name? =>
    obtain ⟨o, t, hstep, -⟩ := root_taken hr h name?
    exact ⟨o, t, hstep⟩
  | getOrBuild f => exact getOrBuild_taken hr h hp
  | retain g =>
    obtain ⟨y, hy⟩ := hp
    exact retain_taken hy
  | release g =>
    cases hy : s.registry.graph? g with
    | none => exact ⟨_, _, step_release_of_none hy⟩
    | some y =>
      -- the last reference, or one of several
      rcases (hp y hy).eq_or_lt with h1 | h1
      · obtain ⟨D, t, hstep, -⟩ := step_release_last hr.orderly hy h1.symm
        exact ⟨_, _, hstep⟩
      · exact ⟨_, _, step_release hr.orderly hy h1⟩
  | destroy g =>
    obtain ⟨y, hy⟩ := hp
    obtain ⟨D, t, hstep, -⟩ := step_destroy hr.orderly hy
    exact ⟨_, _, hstep⟩
  | setSettings x => exact ⟨_, _, rfl⟩
  | setPointsTo p => exact ⟨_, _, rfl⟩
  | setScopes p => exact ⟨_, _, rfl⟩

namespace Proper

/-- **Totality.** On a module that commands put together, with all ids in range and with bodies that
are contained, no step of a proper run fails, whatever was built and torn down before it. A root of
a function with a body is given the graph of that function, and after each step all live graphs are
built. -/
theorem step_taken (ha : m.Assembled) (hc : m.IsClosed) (hb : m.Contained)
    (hs : Session.Proper m s) (hp : s.Permits a) :
    ∃ o t, (s.step a).2 = .ok (o, t) ∧
      (∀ name? f, a = .root name? →
        m.functionNamed? (name?.getD s.setup.settings.entry) = some f → m.Defines f →
          ∃ g, o = .graph g ∧ t.registry.Hosts g f) ∧
      ∀ g y, t.registry.graph? g = some y → y.phase = .built := by
  have hsane := hs.sane (ha.sane hc hb)
  have hr := hs.reachable.complete
  have hm := hs.reachable.steady.1
  rw [← hm] at hr
  obtain ⟨o, t, hstep⟩ := hp.taken hr hsane
  have ht : Session.Reachable m t := .step hs.reachable hstep
  refine ⟨o, t, hstep, fun name? f hroot hname hdef => ?_, ht.steady.2.built⟩
  subst hroot
  rw [← hm] at hname hdef
  obtain ⟨o', t', hstep', hgraph⟩ := root_taken hr hsane name?
  rw [hstep] at hstep'
  cases hstep'
  obtain ⟨g, rfl⟩ := hgraph f hname hdef
  exact ⟨g, rfl, (Session.effect hr.orderly hstep).hosts_of_root hname⟩

/-- The graphs of `ping` and `pong` are built again after that of `pong` was torn down under its
caller. -/
theorem step_taken_pingPong : ∃ o s o' t, ((Session.start .pingPong).step (.root (some "ping"))).2 =
    .ok (o, s) ∧ (s.step (.destroy ⟨1⟩)).2 = .ok (o', t) ∧
      ∃ g u, (t.step (.root (some "ping"))).2 = .ok (.graph g, u) ∧ u.registry.Hosts g ⟨0⟩ := by
  have hrun : (Module.empty "ping pong").assemble pingPongCommands = .ok .pingPong := rfl
  have ha : Module.pingPong.Assembled := Module.Assembled.assemble (.empty "ping pong") hrun
  have hc : Module.pingPong.IsClosed := by
    unfold Module.IsClosed
    decide +kernel
  have hb : Module.pingPong.Contained := .of_tables (by decide +kernel)
  have hbuilt : ((Session.start .pingPong).step (.root (some "ping"))).2.toOption.any (fun p =>
      (p.2.registry.graph? ⟨1⟩).isSome) = true := by decide +kernel
  obtain ⟨⟨o, s⟩, hstep, htest⟩ := exists_ok_of_any hbuilt
  obtain ⟨y, hy⟩ := Option.isSome_iff_exists.1 htest
  have hroots : ∀ u : Session, u.Permits (.root (some "ping")) := fun _ => trivial
  have hdestroy : s.Permits (.destroy ⟨1⟩) := ⟨y, hy⟩
  have hs : Session.Proper .pingPong s := .step .start (hroots _) hstep
  obtain ⟨o', t, hstep', -⟩ := hs.step_taken ha hc hb hdestroy
  have ht : Session.Proper .pingPong t := .step hs hdestroy hstep'
  obtain ⟨o'', u, hstep'', hroot, -⟩ := ht.step_taken ha hc hb (hroots t)
  have hname : Module.pingPong.functionNamed? "ping" = some ⟨0⟩ := by decide +kernel
  obtain ⟨g, rfl, hg⟩ := hroot _ ⟨0⟩ rfl hname ⟨_, rfl, rfl⟩
  exact ⟨o, s, o', t, hstep, hstep', g, u, hstep'', hg⟩

end Proper

end Session

end Sdg
