import Sdg.Proofs.Building.Declarations
import Sdg.Proofs.Session.Integrity
import Sdg.Proofs.Session.Portraits
import Sdg.Proofs.Twins.Skip
import Sdg.Proofs.Twins.Steps

/-!
# Refused roots

When a root is refused the graphs are as they were. A name may be spent on a graph that is not there
any more, but it is never seen again: whatever is done later comes out as if it had not been spent,
but that later graphs have names that are larger by one.

Main results:

* `Session.Skips.step` — a step comes out alike where a name was passed over;
* `Session.Skips.follows` — so do all runs;
* `Session.Reachable.refused_root` — when roots are refused, and that nothing else comes of it.
-/

namespace Sdg

open Registry

/-! ## Where a name was passed over -/

/-- The sessions are alike but that the second one has passed over the name `k`. -/
structure Session.Skips (k : GraphId) (s t : Session) : Prop where
  setup : t.setup = s.setup
  registry : s.registry.Skips k t.registry

/-- The same entry of a log, where the name `k` was passed over. -/
structure Entry.Skips (k : GraphId) (x x' : Entry) : Prop where
  step : x.step.Like (.skip k) x'.step
  outcome : x.outcome.Like (.skip k) x'.outcome
  after : x.after.Skips k x'.after

/-- Steps that come out alike: both are taken, with the same answer, or both fail, in the same
fault. -/
inductive Session.SkipsTo (k : GraphId) :
    Except Fault (Outcome × Session) → Except Fault (Outcome × Session) → Prop where
  | taken {o o' : Outcome} {s t : Session} : o.Like (.skip k) o' → s.Skips k t →
      SkipsTo k (.ok (o, s)) (.ok (o', t))
  | fault {f f' : Fault} : f.Like (.skip k) f' → SkipsTo k (.error f) (.error f')

/-- Whether a step is about the graph `k`. -/
def Step.IsAbout (k : GraphId) : Step → Prop
  | .retain g | .release g | .destroy g => g = k
  | _ => False

/-- A step that is not about a graph with the name that is passed over has one like it. -/
theorem Step.exists_like {k : GraphId} {a' : Step} (h : ¬ a'.IsAbout k) :
    ∃ a, Step.Like (.skip k) a a' := by
  cases a' with
  | root name? => exact ⟨_, .root name?⟩
  | getOrBuild f => exact ⟨_, .getOrBuild f⟩
  | retain g =>
    obtain ⟨i, hi⟩ := GraphId.exists_skip h
    exact ⟨_, .retain hi.symm⟩
  | release g =>
    obtain ⟨i, hi⟩ := GraphId.exists_skip h
    exact ⟨_, .release hi.symm⟩
  | destroy g =>
    obtain ⟨i, hi⟩ := GraphId.exists_skip h
    exact ⟨_, .destroy hi.symm⟩
  | setSettings x => exact ⟨_, .setSettings x⟩
  | setPointsTo p => exact ⟨_, .setPointsTo p⟩
  | setScopes p => exact ⟨_, .setScopes p⟩

theorem Step.exists_skip (k : GraphId) (a : Step) : ∃ a', a.Like (.skip k) a' := by
  cases a with
  | root name? => exact ⟨_, .root name?⟩
  | getOrBuild f => exact ⟨_, .getOrBuild f⟩
  | retain g => exact ⟨_, .retain rfl⟩
  | release g => exact ⟨_, .release rfl⟩
  | destroy g => exact ⟨_, .destroy rfl⟩
  | setSettings x => exact ⟨_, .setSettings x⟩
  | setPointsTo p => exact ⟨_, .setPointsTo p⟩
  | setScopes p => exact ⟨_, .setScopes p⟩

theorem Registry.Orderly.moves {e : Setup} {r t : Registry} (hr : r.Orderly e.program)
    (h : r.Moves e t) : t.Orderly e.program := by
  cases h with
  | ripens h => exact hr.changes h.changes
  | falls hD h => exact h.orderly hr hD.1

namespace Session

variable {m : Module} {s t u v : Session} {a a' : Step} {o : Outcome} {log : List Entry}
  {k : GraphId}

/-- What holds of registries in order holds after each step. -/
theorem orderly_of_step (hs : s.registry.Orderly s.setup.program)
    (h : (s.step a).2 = .ok (o, t)) : t.registry.Orderly t.setup.program := by
  rw [setup_of_step h, program_reconfigure]
  exact hs.moves (moves hs h)

theorem Run.orderly (hs : s.registry.Orderly s.setup.program) (h : Run s log t) :
    t.registry.Orderly t.setup.program := by
  induction h with
  | nil => exact hs
  | cons _ hstep ih => exact orderly_of_step ih hstep

/-- **Passing over.** A step comes out alike where a name was passed over. -/
theorem Skips.step (h : s.Skips k t) (hs : s.registry.Orderly s.setup.program)
    (ht : t.registry.Orderly t.setup.program) (ha : a.Like (.skip k) a') :
    SkipsTo k (s.step a).2 (t.step a').2 := by
  have hboth := both_step (ρ := .skip k) h.setup h.registry (h.registry.withGlobals _) ha
  rcases steps_of_both hboth (not_exhausted (effect_work hs a))
    (not_exhausted (effect_work ht a'))
    with ⟨o, r, o', r', hr, hr', hleaves⟩ | ⟨f, f', hf, hf', hff⟩
  · rw [hr, hr']
    refine .taken hleaves.like ⟨?_, hleaves.holds h.registry⟩
    rw [h.setup]
    exact reconfigure_like ha _
  · rw [hf, hf']
    exact .fault hff

/-- So a run has one like it where the name was passed over. -/
theorem Skips.run (h : s.Skips k t) (hs : s.registry.Orderly s.setup.program)
    (ht : t.registry.Orderly t.setup.program) (hrun : Run s log u) :
    ∃ log' v, Run t log' v ∧ List.Forall₂ (Entry.Skips k) log log' ∧ u.Skips k v := by
  induction hrun with
  | nil => exact ⟨[], t, .nil, .nil, h⟩
  | @cons log u₀ u a o hrun hstep ih =>
    obtain ⟨log', v₀, hrun', hlog, huv⟩ := ih
    obtain ⟨a', ha⟩ := a.exists_skip k
    have hto := huv.step (hrun.orderly hs) (hrun'.orderly ht) ha
    rw [hstep] at hto
    generalize hv : (v₀.step a').2 = result at hto
    cases hto with
    | taken ho huv => exact ⟨_, _, .cons hrun' hv, .cons ⟨ha, ho, huv⟩ hlog, huv⟩

/-- And a run where the name was passed over has one like it, if no step is about this name. -/
theorem Skips.run_back (h : s.Skips k t) (hs : s.registry.Orderly s.setup.program)
    (ht : t.registry.Orderly t.setup.program) (hrun : Run t log v)
    (hlog : ∀ x ∈ log, ¬ x.step.IsAbout k) :
    ∃ log' u, Run s log' u ∧ List.Forall₂ (Entry.Skips k) log' log ∧ u.Skips k v := by
  induction hrun with
  | nil => exact ⟨[], s, .nil, .nil, h⟩
  | @cons log v₀ v a' o hrun hstep ih =>
    obtain ⟨log', u₀, hrun', hlog', huv⟩ := ih fun x hx => hlog x (List.mem_cons_of_mem _ hx)
    obtain ⟨a, ha⟩ := Step.exists_like (hlog _ List.mem_cons_self)
    have hto := huv.step (hrun'.orderly hs) (hrun.orderly ht) ha
    rw [hstep] at hto
    generalize hu : (u₀.step a).2 = result at hto
    cases hto with
    | taken ho huv => exact ⟨_, _, .cons hrun' hu, .cons ⟨ha, ho, huv⟩ hlog', huv⟩

/-- A name that is spent is the name of no graph again, whatever is done. -/
theorem Run.spent (hs : s.registry.Orderly s.setup.program) (h : Run s log t)
    (hk : s.registry.graph? k = none) (hlt : k.index < s.registry.graphs.next) :
    t.registry.graph? k = none ∧ k.index < t.registry.graphs.next := by
  induction h with
  | nil => exact ⟨hk, hlt⟩
  | @cons log t u a o hrun hstep ih =>
    obtain ⟨hk, hlt⟩ := ih
    have hrenames := (effect (hrun.orderly hs) hstep).renames
    have hnone : u.registry.graph? k = none := Option.eq_none_iff_forall_ne_some.2 fun y hy =>
      Nat.not_le.2 hlt (hrenames.fresh k y hk hy)
    exact ⟨hnone, Nat.lt_of_lt_of_le hlt hrenames.next⟩

/-- What comes after `s` and after `t`, where the name `k` is spent, is alike: each run of the one
has its like in the other, and in the end each step comes out alike. -/
structure Follows (k : GraphId) (s t : Session) : Prop where
  onward : ∀ log u, Run s log u → ∃ log' v, Run t log' v ∧ List.Forall₂ (Entry.Skips k) log log' ∧
    u.Skips k v ∧ ∀ a a', a.Like (.skip k) a' → SkipsTo k (u.step a).2 (v.step a').2
  back : ∀ log v, Run t log v → (∀ x ∈ log, ¬ x.step.IsAbout k) →
    ∃ log' u, Run s log' u ∧ List.Forall₂ (Entry.Skips k) log' log ∧ u.Skips k v
  spent : ∀ log v, Run t log v → v.registry.graph? k = none

theorem Skips.follows (h : s.Skips k t) (hs : s.registry.Orderly s.setup.program)
    (ht : t.registry.Orderly t.setup.program) : Follows k s t where
  onward log u hrun := by
    obtain ⟨log', v, hrun', hlog, huv⟩ := h.run hs ht hrun
    exact ⟨log', v, hrun', hlog, huv, fun a a' => huv.step (hrun.orderly hs) (hrun'.orderly ht)⟩
  back log v hrun hlog := h.run_back hs ht hrun hlog
  spent log v hrun := by
    have hlt : k.index < t.registry.graphs.next := by
      rw [h.registry.next_eq]
      exact Nat.lt_succ_of_le h.registry.passed
    exact (hrun.spent ht h.registry.skipped hlt).1

end Session

/-- A registry in which the last name was spent has passed over it. -/
theorem Registry.Spends.skips {m : Module} {r t : Registry} (hr : r.Orderly m) (h : r.Spends t) :
    r.Skips r.nextGraph t where
  node n := by
    rw [h.node?]
    cases hx : r.node? n with
    | none => exact .none
    | some x =>
      -- the graphs that a node names are live, so their names were given out before
      refine .some (.refl (fun g hg => ?_) fun g hg => ?_)
      · obtain ⟨y, hy⟩ := hr.live_of_ownedBy ⟨x, hx, hg⟩
        exact Arena.lt_next_of_get? hy
      · obtain ⟨y, hy, _⟩ := (hr.mirrored.calls n g).1 ⟨x, hx, hg⟩
        exact Arena.lt_next_of_get? hy
  graph g := by
    rw [h.graph]
    rcases Nat.lt_or_ge g.index r.graphs.next with hlt | hle
    · rw [GraphId.skip_of_lt (k := r.nextGraph) hlt]
      exact optionRel_refl .refl _
    · have hg : r.graph? g = none := Arena.get?_of_next_le hle
      have hskip : r.graph? (r.nextGraph.skip g) = none := by
        rw [GraphId.skip_of_le (k := r.nextGraph) hle]
        exact Arena.get?_of_next_le (Nat.le_succ_of_le hle)
      rw [hg, hskip]
      exact .none
  lookup? f := by
    rw [h.lookup]
    cases hf : r.lookup? f with
    | none => exact .none
    | some g =>
      -- so was the name of a graph that is entered
      obtain ⟨y, hy, _⟩ := hr.enrolled.hosts hf
      exact .some (GraphId.skip_of_lt (Arena.lt_next_of_get? hy)).symm
  skipped := by rw [h.graph, graph?_nextGraph]
  pool := h.pool
  gathered := h.gathered
  nextNode := by rw [nextNode, nextNode, h.nodes]
  nextGraph := by
    rw [GraphId.skip_of_le (Nat.le_refl _)]
    exact congrArg GraphId.mk h.next
  passed := Nat.le_refl _

/-! ## Roots of sessions -/

namespace Session

/-- The name by which a root is asked for: the given one, or else the one that is set. -/
def rootName (s : Session) (name? : Option String) : String := name?.getD s.setup.settings.entry

/-- The session in which shared nodes were made for all globals, and nothing else was done. -/
def filled (s : Session) : Session := ⟨s.setup, s.registry.withGlobals s.setup.program.globals⟩

variable {m : Module} {s t : Session} {o : Outcome} {f : FunctionId} {x : Function}
  {name? : Option String}

/-- A function without a body has no graph. -/
theorem Reachable.lookup?_eq_none (hs : Reachable m s) (hx : m.function f = .ok x)
    (hdef : x.isDefined = false) : s.registry.lookup? f = none := by
  refine hs.orderly.enrolled.lookup?_eq_none_iff.2 fun g y hy hf => ?_
  obtain ⟨z, hz, hmirror⟩ := hs.exists_mirror hy
  rw [hf, hx] at hz
  cases hz
  -- a graph has an entry unit, which is that of the first block
  obtain ⟨u, hu⟩ := (hs.complete.whole g y hy).first
  have hblocks : x.blocks = [] := by simpa [Function.isDefined] using hdef
  rw [Graph.entryUnit?, hmirror.start, hblocks] at hu
  cases hu

theorem step_root_of_unknown (h : s.setup.program.functionNamed? (s.rootName name?) = none) :
    (s.step (.root name?)).2 = .ok (.failed (.unknown (s.rootName name?)), s) := by
  have hwork : Work.wp Fault.Never (s.work (.root name?))
      (fun o r => o = .failed (.unknown (s.rootName name?)) ∧ r = s.registry) s.registry := by
    refine Work.wp_bind (Work.constructRoot_unknown h) ?_
    rintro _ _ ⟨rfl, rfl⟩
    exact Work.wp_pure ⟨rfl, rfl⟩
  obtain ⟨_, _, hstep, rfl, rfl⟩ := exists_step hwork
  exact hstep

theorem Reachable.step_root_of_declaration (hs : Reachable m s)
    (hname : m.functionNamed? (s.rootName name?) = some f) (hx : m.function f = .ok x)
    (hdef : x.isDefined = false) : ∃ t,
      (s.step (.root name?)).2 = .ok (.failed (.declaration (s.rootName name?)), t) ∧
        t.setup = s.setup ∧ s.filled.registry.Spends t.registry := by
  obtain rfl := hs.steady.1
  have hwork : Work.wp Fault.Never (s.work (.root name?)) (fun o r =>
      o = .failed (.declaration (s.rootName name?)) ∧ s.filled.registry.Spends r) s.registry := by
    refine Work.wp_bind (Work.constructRoot_declaration hs.orderly hname hx hdef
      (hs.lookup?_eq_none hx hdef)) ?_
    rintro _ _ ⟨rfl, hspends⟩
    exact Work.wp_pure ⟨rfl, hspends⟩
  obtain ⟨_, r, hstep, rfl, hspends⟩ := exists_step hwork
  exact ⟨_, hstep, rfl, hspends⟩

theorem step_root_of_isDefined (hname : s.setup.program.functionNamed? (s.rootName name?) = some f)
    (hx : s.setup.program.function f = .ok x) (hdef : x.isDefined = true)
    (h : (s.step (.root name?)).2 = .ok (o, t)) : ∃ g, o = .graph g := by
  have hwork : Work.wp Fault.Any (s.work (.root name?)) (fun o _ => ∃ g, o = .graph g)
      s.registry := by
    refine Work.wp_bind (Work.constructRoot_of_isDefined hname hx hdef) ?_
    rintro _ _ ⟨g, rfl⟩
    exact Work.wp_pure ⟨g, rfl⟩
  exact of_step hwork h

/-- How a root comes out: no function has the name, the first one that has it has no blocks, or it
has some and then there is a graph, if there is an answer. -/
inductive RootCases (s : Session) (name? : Option String) : Prop where
  | unknown : (∀ f x, s.setup.program.function f = .ok x → x.name ≠ s.rootName name?) →
      (s.step (.root name?)).2 = .ok (.failed (.unknown (s.rootName name?)), s) →
      RootCases s name?
  | declaration {f : FunctionId} {x : Function} {t : Session} :
      s.setup.program.FirstNamed (s.rootName name?) f x → x.blocks = [] →
      (s.step (.root name?)).2 = .ok (.failed (.declaration (s.rootName name?)), t) →
      t.setup = s.setup → s.filled.registry.Spends t.registry → RootCases s name?
  | body {f : FunctionId} {x : Function} : s.setup.program.FirstNamed (s.rootName name?) f x →
      x.blocks ≠ [] →
      (∀ o t, (s.step (.root name?)).2 = .ok (o, t) → ∃ g, o = .graph g) → RootCases s name?

theorem Reachable.rootCases (hs : Reachable m s) (name? : Option String) :
    RootCases s name? := by
  obtain rfl := hs.steady.1
  cases hname : s.setup.program.functionNamed? (s.rootName name?) with
  | none =>
    exact .unknown (Module.functionNamed?_eq_none_iff.1 hname) (step_root_of_unknown hname)
  | some f =>
    obtain ⟨x, hx⟩ := Module.functionNamed?_eq_some_iff.1 hname
    cases hdef : x.isDefined with
    | true =>
      have hblocks : x.blocks ≠ [] := by simpa [Function.isDefined] using hdef
      exact .body hx hblocks fun o t => step_root_of_isDefined hname hx.function hdef
    | false =>
      have hblocks : x.blocks = [] := by simpa [Function.isDefined] using hdef
      obtain ⟨t, hstep, hsetup, hspends⟩ := hs.step_root_of_declaration hname hx.function hdef
      exact .declaration hx hblocks hstep hsetup hspends

theorem Reachable.unknown_iff (hs : Reachable m s) (name? : Option String) :
    (∃ name t, (s.step (.root name?)).2 = .ok (.failed (.unknown name), t)) ↔
      ∀ f x, m.function f = .ok x → x.name ≠ s.rootName name? := by
  obtain rfl := hs.steady.1
  cases hs.rootCases name? with
  | unknown hnone hstep => exact ⟨fun _ => hnone, fun _ => ⟨_, _, hstep⟩⟩
  | declaration hx _ hstep _ _ =>
    refine ⟨fun ⟨_, _, h⟩ => ?_, fun h => absurd hx.named (h _ _ hx.function)⟩
    rw [hstep] at h
    cases h
  | body hx _ hgraph =>
    refine ⟨fun ⟨_, _, h⟩ => ?_, fun h => absurd hx.named (h _ _ hx.function)⟩
    obtain ⟨_, hg⟩ := hgraph _ _ h
    cases hg

theorem Reachable.declaration_iff (hs : Reachable m s) (name? : Option String) :
    (∃ name t, (s.step (.root name?)).2 = .ok (.failed (.declaration name), t)) ↔
      ∃ f x, m.FirstNamed (s.rootName name?) f x ∧ x.blocks = [] := by
  obtain rfl := hs.steady.1
  cases hs.rootCases name? with
  | unknown hnone hstep =>
    refine ⟨fun ⟨_, _, h⟩ => ?_, fun ⟨_, _, hx, _⟩ => absurd hx.named (hnone _ _ hx.function)⟩
    rw [hstep] at h
    cases h
  | declaration hx hblocks hstep _ _ =>
    exact ⟨fun _ => ⟨_, _, hx, hblocks⟩, fun _ => ⟨_, _, hstep⟩⟩
  | body hx hblocks hgraph =>
    refine ⟨fun ⟨_, _, h⟩ => ?_, fun ⟨_, _, hx', hblocks'⟩ => ?_⟩
    · obtain ⟨_, hg⟩ := hgraph _ _ h
      cases hg
    · -- the first function with the name is one
      cases hx.inj hx'
      exact absurd hblocks' hblocks

/-- A root that names no function changes nothing. -/
theorem Reachable.of_unknown (hs : Reachable m s) {name : String}
    (h : (s.step (.root name?)).2 = .ok (.failed (.unknown name), t)) :
    name = s.rootName name? ∧ t = s := by
  cases hs.rootCases name? with
  | unknown _ hstep =>
    rw [hstep] at h
    cases h
    exact ⟨rfl, rfl⟩
  | declaration _ _ hstep _ _ =>
    rw [hstep] at h
    cases h
  | body _ _ hgraph =>
    obtain ⟨_, hg⟩ := hgraph _ _ h
    cases hg

/-- A root without a body leaves the shared nodes and a name that is spent, and goes on so. -/
theorem Reachable.of_declaration (hs : Reachable m s) {name : String}
    (h : (s.step (.root name?)).2 = .ok (.failed (.declaration name), t)) :
    name = s.rootName name? ∧ t.setup = s.setup ∧ s.registry.Refuses m.globals t.registry ∧
      Follows s.registry.nextGraph s.filled t := by
  obtain rfl := hs.steady.1
  cases hs.rootCases name? with
  | unknown _ hstep =>
    rw [hstep] at h
    cases h
  | declaration _ _ hstep hsetup hspends =>
    rw [hstep] at h
    cases h
    have hfilled : s.filled.registry.Orderly s.filled.setup.program := hs.orderly.withGlobals _
    have ht : t.registry.Orderly t.setup.program := orderly_of_step hs.orderly hstep
    -- no graph was made when the pool was filled
    have hnext : s.filled.registry.nextGraph = s.registry.nextGraph := by
      rw [nextGraph, filled, graphs_withGlobals, nextGraph]
    have hskips : s.filled.Skips s.registry.nextGraph t :=
      ⟨hsetup, hnext ▸ hspends.skips hfilled⟩
    exact ⟨rfl, hsetup, hspends.refuses, hskips.follows hfilled ht⟩
  | body _ _ hgraph =>
    obtain ⟨_, hg⟩ := hgraph _ _ h
    cases hg

/-- **Refused roots.** A root is refused with the first error exactly if no function has the name,
and then nothing was done. It is refused with the second one exactly if the first function with the
name has no blocks, and then all live graphs and nodes are as they were, with their edges,
references and callers; functions are found and calls are gathered as before; globals without a
shared node got one; and the name of one graph is spent, and is the name of no graph ever. Whatever
is done later comes out as it would had only the shared nodes been made, but that later graphs have
names that are larger by one. -/
theorem Reachable.refused_root (hs : Reachable m s) (name? : Option String) :
    ((∃ name t, (s.step (.root name?)).2 = .ok (.failed (.unknown name), t)) ↔
      ∀ f x, m.function f = .ok x → x.name ≠ s.rootName name?) ∧
    (∀ name t, (s.step (.root name?)).2 = .ok (.failed (.unknown name), t) →
      name = s.rootName name? ∧ t = s) ∧
    ((∃ name t, (s.step (.root name?)).2 = .ok (.failed (.declaration name), t)) ↔
      ∃ f x, m.FirstNamed (s.rootName name?) f x ∧ x.blocks = []) ∧
    ∀ name t, (s.step (.root name?)).2 = .ok (.failed (.declaration name), t) →
      name = s.rootName name? ∧ t.setup = s.setup ∧ s.registry.Refuses m.globals t.registry ∧
        Follows s.registry.nextGraph s.filled t := by
  exact ⟨hs.unknown_iff name?, fun _ _ => hs.of_unknown, hs.declaration_iff name?,
    fun _ _ => hs.of_declaration⟩

/-- In the small module a root is refused for the allocating function, which has no body. Then
`main` gets the second name, and not the first one as it would if only the pool had been filled. -/
theorem Reachable.refused_root_of_ticks : ∃ t u v,
    ((Session.start .ticks).step (.root (some "malloc"))).2 =
        .ok (.failed (.declaration "malloc"), t) ∧
      (∃ f x, Module.ticks.FirstNamed "malloc" f x ∧ x.blocks = []) ∧
      ((Session.start .ticks).filled.step (.root none)).2 = .ok (.graph ⟨0⟩, u) ∧
        (t.step (.root none)).2 = .ok (.graph ⟨1⟩, v) ∧ u.Skips ⟨0⟩ v := by
  have hrefused : ((Session.start .ticks).step (.root (some "malloc"))).2.toOption.any (fun p =>
      decide (p.1 = .failed (.declaration "malloc"))) = true := by decide +kernel
  have hbuilt : ((Session.start .ticks).filled.step (.root none)).2.toOption.any (fun p =>
      decide (p.1 = .graph ⟨0⟩)) = true := by decide +kernel
  obtain ⟨⟨o, t⟩, hstep, ho⟩ := exists_ok_of_any hrefused
  obtain ⟨⟨o', u⟩, hu, ho'⟩ := exists_ok_of_any hbuilt
  cases of_decide_eq_true ho
  cases of_decide_eq_true ho'
  obtain ⟨_, _, hdeclared, hall⟩ := Reachable.start (m := .ticks).refused_root (some "malloc")
  obtain ⟨_, _, _, hfollows⟩ := hall _ t hstep
  obtain ⟨log, t', hrun, hlog, _, hsteps⟩ := hfollows.onward [] _ .nil
  cases hlog
  cases hrun
  have hto := hsteps _ _ (.root none)
  rw [hu] at hto
  generalize hv : (t.step (.root none)).2 = result at hto
  cases hto with
  | @taken _ _ _ v hlike hskips =>
    cases hlike with
    | graph hg =>
      obtain rfl := hg
      exact ⟨t, u, v, hstep, hdeclared.1 ⟨_, _, hstep⟩, hu, hv, hskips⟩

end Session

end Sdg
