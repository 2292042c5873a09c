import Sdg.Proofs.Closed
import Sdg.Proofs.Collection
import Sdg.Proofs.Session.Coverage
import Sdg.Proofs.Session.Portraits
import Sdg.Query.CallSites

/-!
# Call sites

There are two ways to find the calls of a function. They are gathered while bodies are visited, by
the function that they name; or they are looked for afterwards, and then a call that is linked is
known by what it is linked to. A call that names a function is never linked to the graph of another
one, so both ways agree about it, and they differ in the calls that name none.

Main results:

* `Session.Reachable.mayRun_of_calls` — a call is linked only to graphs of what it may run;
* `Session.Reachable.tells` — it is told what each call of a live graph calls;
* `Session.call_sites_agree` — which calls are found, and how they differ from those gathered.
-/

namespace Sdg

open Registry

/-! ## What is found -/

/-- Whether the function `f` has one of the names. -/
def Module.HasName (m : Module) (f : FunctionId) (names : List String) : Prop :=
  ∃ x, m.function f = .ok x ∧ x.name ∈ names

namespace Module

variable {m : Module} {f : FunctionId} {x : Function} {names : List String}

theorem isNamed_eq (hx : m.function f = .ok x) :
    m.isNamed f names = .ok (names.contains x.name) := by rw [isNamed, hx]; rfl

theorem hasName_iff (hx : m.function f = .ok x) : m.HasName f names ↔ names.contains x.name := by
  rw [List.contains_iff_mem]
  constructor
  · rintro ⟨x', hx', h⟩
    rw [hx] at hx'
    cases hx'
    exact h
  · exact fun h => ⟨x, hx, h⟩

/-- A call that is not linked is matched by the function that it names. -/
theorem exists_callsOneOf {v callee : ValueId} {args : List ValueId} {f? : Option FunctionId}
    (hcall : m.IsCallOf v callee args) (hname : m.Names callee f?)
    (hfound : ∀ f ∈ f?, ∃ x, m.function f = .ok x) (names : List String) :
    ∃ b, m.callsOneOf (.value v) names = .ok b ∧ (b = true ↔ ∃ f ∈ f?, m.HasName f names) := by
  obtain ⟨i, hi, hop⟩ := hcall
  obtain ⟨t, ht, hf⟩ := hname
  rw [callsOneOf, operation?_of_instruction? hi, hop]
  simp only [ht, hf, bind, Except.bind]
  cases f? with
  | none => exact ⟨false, rfl, by simp⟩
  | some f =>
    obtain ⟨x, hx⟩ := hfound f rfl
    exact ⟨_, isNamed_eq hx, by simp [hasName_iff hx]⟩

end Module

namespace Registry

/-- The node `c` is that of a call of the value `callee` in the body of a live graph. -/
def IsCallNode (m : Module) (r : Registry) (c : NodeId) (callee : ValueId) : Prop :=
  ∃ g y v args, r.graph? g = some y ∧ m.InBody y.function v ∧ m.IsCallOf v callee args ∧
    y.index.get? (.value v) = some c ∧ r.Keyed c (.value v)

/-- The call `c` names a function with one of the names. -/
def DirectSite (m : Module) (r : Registry) (names : List String) (c : NodeId) : Prop :=
  ∃ callee f, r.IsCallNode m c callee ∧ m.Names callee (some f) ∧ m.HasName f names

/-- The call `c` names no function and is linked to a graph of a function with one of the names. -/
def IndirectSite (m : Module) (r : Registry) (names : List String) (c : NodeId) : Prop :=
  ∃ callee h f, r.IsCallNode m c callee ∧ m.Names callee none ∧ r.Calls c h ∧ r.Hosts h f ∧
    m.HasName f names

variable {m : Module} {r : Registry} {c : NodeId} {callee callee' v : ValueId}

/-- The node of a call is known by its key. -/
theorem IsCallNode.callee_eq {args : List ValueId} (h : r.IsCallNode m c callee)
    (hk : r.Keyed c (.value v)) (hcall : m.IsCallOf v callee' args) : callee' = callee := by
  obtain ⟨_, _, w, _, _, _, hcall', _, x, hx, hkey⟩ := h
  obtain ⟨x', hx', hkey'⟩ := hk
  rw [hx] at hx'
  cases hx'
  rw [hkey] at hkey'
  cases hkey'
  exact (hcall'.inj hcall).1

theorem IsCallNode.inj (h : r.IsCallNode m c callee) (h' : r.IsCallNode m c callee') :
    callee' = callee := by
  obtain ⟨_, _, _, _, _, _, hcall, _, hk⟩ := h'
  exact h.callee_eq hk hcall

/-- A call that names a function is not found by what it is linked to. -/
theorem IndirectSite.not_direct {names : List String} (h : r.IndirectSite m names c) :
    ¬ r.DirectSite m names c := by
  intro hdirect
  obtain ⟨callee, _, _, hcall, hname, _⟩ := h
  obtain ⟨callee', f, hcall', hname', _⟩ := hdirect
  cases hcall.inj hcall'
  cases hname.inj hname'

end Registry

/-! ## What links and bodies are -/

/-- A call is linked only to graphs of what it may run, with the pointees of some setup. -/
def Registry.Justified (m : Module) (r : Registry) : Prop :=
  ∀ c g, r.Calls c g → ∃ e : Setup, e.program = m ∧
    ∃ v f, r.Keyed c (.value v) ∧ r.Hosts g f ∧ e.MayRun v f

/-- It is told what each call in the body of a live graph calls. -/
def Registry.Told (m : Module) (r : Registry) : Prop :=
  ∀ g y v, r.graph? g = some y → m.InBody y.function v → m.Tells v

namespace Registry

variable {m : Module} {e : Setup} {r s t : Registry} {D : Set GraphId}

theorem Justified.changes (hr : r.Justified e.program) (h : Changes e r s) :
    s.Justified e.program := by
  induction h with
  | refl => exact hr
  | tail _ hc ih =>
    intro c g hcalls
    rcases hc.calls hcalls with hold | ⟨h, _, hmay⟩
    · obtain ⟨e', he, v, f, hk, hf, hruns⟩ := ih c g hold
      exact ⟨e', he, v, f, hk.grows hc.grows, hf.grows hc.grows, hruns⟩
    · obtain ⟨v, x, _, z, hx, hk, _, hz, _, hruns⟩ := hmay.grows hc.grows
      exact ⟨e, rfl, v, z.function, ⟨x, hx, hk⟩, ⟨z, hz, rfl⟩, hruns⟩

theorem Justified.remains (hr : r.Justified m) (h : r.Remains D t) : t.Justified m := by
  intro c g hcalls
  obtain ⟨hc, hg, hold⟩ := h.calls_iff.1 hcalls
  obtain ⟨e, he, v, f, ⟨x, hx, hk⟩, ⟨y, hy, hf⟩, hruns⟩ := hr c g hold
  -- both ends of the link remain what they were
  exact ⟨e, he, v, f, ⟨_, h.node?_iff.2 ⟨hc, x, hx, rfl⟩, hk⟩,
    ⟨_, h.graph?_iff.2 ⟨hg, y, hy, rfl⟩, hf⟩, hruns⟩

theorem Told.ripens (hr : r.Told e.program) (h : Ripens e r s) : s.Told e.program := by
  intro g y' v hy' hv
  cases hy : r.graph? g with
  | none =>
    intro callee args hcall
    obtain ⟨c, hc⟩ := (h.fresh g y' hy hy').2.called v callee args hv hcall
    exact hc.tells callee args hcall
  | some y =>
    obtain ⟨z, hz, hgrows⟩ := h.changes.grows.graph g y hy
    rw [hy'] at hz
    cases hz
    exact hr g y v hy (hgrows.function ▸ hv)

theorem Told.remains (hr : r.Told m) (h : r.Remains D t) : t.Told m := by
  intro g y' v hy' hv
  obtain ⟨_, y, hy, rfl⟩ := h.graph?_iff.1 hy'
  exact hr g y v hy hv

end Registry

namespace Session.Reachable

variable {m : Module} {s : Session} {c : NodeId} {g : GraphId} {y : Graph} {v callee : ValueId}
  {f : FunctionId}

theorem justified_told (hs : Reachable m s) : s.registry.Justified m ∧ s.registry.Told m := by
  induction hs with
  | start =>
    refine ⟨fun c g hc => ?_, fun g y v hy => nomatch hy⟩
    obtain ⟨_, hx, _⟩ := hc
    cases hx
  | @step s t a o hs hstep ih =>
    obtain ⟨hjustified, htold⟩ := ih
    have hm : s.setup.program = m := hs.steady.1
    cases Session.moves hs.orderly hstep with
    | ripens h =>
      subst hm
      exact ⟨hjustified.changes h.changes, htold.ripens h⟩
    | falls _ h => exact ⟨hjustified.remains h, htold.remains h⟩

/-- **Links.** A call is linked only to graphs of what it may run, with the pointees of some setup.
-/
theorem mayRun_of_calls (hs : Reachable m s) (hc : s.registry.Calls c g) : ∃ e : Setup,
    e.program = m ∧ ∃ v f, s.registry.Keyed c (.value v) ∧ s.registry.Hosts g f ∧ e.MayRun v f :=
  hs.justified_told.1 c g hc

/-- It is told what each call in the body of a live graph calls. -/
theorem tells (hs : Reachable m s) (hy : s.registry.graph? g = some y)
    (hv : m.InBody y.function v) : m.Tells v :=
  hs.justified_told.2 g y v hy hv

/-- A call that names a function is linked to no graph of another one. -/
theorem hosts_of_direct (hs : Reachable m s) (hcall : s.registry.IsCallNode m c callee)
    (hname : m.Names callee (some f)) (hc : s.registry.Calls c g) : s.registry.Hosts g f := by
  obtain ⟨e, rfl, v, f', hk, hhosts, hmay⟩ := hs.mayRun_of_calls hc
  cases hmay with
  | named hcall' hname' _ _ =>
    cases hcall.callee_eq hk hcall'
    cases hname.inj hname'
    exact hhosts
  | pointed hcall' hname' _ _ _ =>
    -- pointees are asked for a call only that names no function
    cases hcall.callee_eq hk hcall'
    cases hname.inj hname'

/-- The nodes that are listed as calls are those of the calls in the bodies of live graphs. -/
theorem listed_iff (hs : Reachable m s) :
    c ∈ s.registry.liveGraphs.flatMap (fun p => p.2.callNodes.toList) ↔
      ∃ callee, s.registry.IsCallNode m c callee := by
  rw [List.mem_flatMap]
  constructor
  · rintro ⟨⟨g, y⟩, hy, hc⟩
    rw [mem_liveGraphs] at hy
    obtain ⟨x, _, hmirror⟩ := hs.exists_mirror hy
    obtain ⟨v, hv, ⟨callee, args, hcall⟩, hi⟩ := (hmirror.calls c).1 hc
    obtain ⟨w, hw, hk, _⟩ := hs.complete.orderly.exists_of_index hy hi
    exact ⟨callee, g, y, v, args, hy, hv, hcall, hi, w, hw, hk⟩
  · rintro ⟨callee, g, y, v, args, hy, hv, hcall, hi, _⟩
    obtain ⟨x, _, hmirror⟩ := hs.exists_mirror hy
    exact ⟨(g, y), mem_liveGraphs.2 hy, (hmirror.calls c).2 ⟨v, hv, ⟨callee, args, hcall⟩, hi⟩⟩

/-! ## How calls are matched -/

/-- A graph that is linked to a call is looked at for the name of its function. -/
theorem exists_anyNamed (hs : Reachable m s) (names : List String) (gs : List GraphId) :
    ∃ b, s.registry.anyNamed m names gs = .ok b ∧
      (b = true ↔ ∃ g ∈ gs, ∃ f, s.registry.Hosts g f ∧ m.HasName f names) := by
  -- the search stops at the first graph whose function has one of the names
  induction gs with
  | nil => exact ⟨false, rfl, by simp⟩
  | cons g gs ih =>
    obtain ⟨b, hb, hiff⟩ := ih
    cases hy : s.registry.graph? g with
    | none =>
      refine ⟨b, by rw [anyNamed, hy]; exact hb, ?_⟩
      have hgone : ¬ ∃ f, s.registry.Hosts g f ∧ m.HasName f names := by
        rintro ⟨f, ⟨y, hy', _⟩, _⟩
        rw [hy] at hy'
        cases hy'
      simp [hiff, hgone]
    | some y =>
      obtain ⟨x, hx, _⟩ := hs.exists_mirror hy
      have hhosts : (∃ f, s.registry.Hosts g f ∧ m.HasName f names) ↔ names.contains x.name := by
        rw [← Module.hasName_iff hx]
        constructor
        · rintro ⟨f, ⟨y', hy', rfl⟩, hf⟩
          rw [hy] at hy'
          cases hy'
          exact hf
        · exact fun h => ⟨y.function, ⟨y, hy, rfl⟩, h⟩
      rw [anyNamed, hy]
      simp only [Module.isNamed_eq hx, List.mem_cons, exists_eq_or_imp, hhosts]
      cases names.contains x.name with
      | true => exact ⟨true, rfl, by simp⟩
      | false => exact ⟨b, hb, by simp [hiff]⟩

/-- **Matches.** A call is matched by the function that it names, or else by the graphs that it is
linked to. -/
theorem exists_callMatches (hs : Reachable m s) (names : List String)
    (hcall : s.registry.IsCallNode m c callee) :
    ∃ b, s.registry.callMatches m names c = .ok b ∧
      (b = true ↔ s.registry.DirectSite m names c ∨ s.registry.IndirectSite m names c) := by
  have hsite := hcall
  obtain ⟨g, y, v, args, hy, hv, hvcall, _, x, hx, hk⟩ := hcall
  obtain ⟨f?, hname, hfound⟩ := hs.tells hy hv callee args hvcall
  -- what the call names is read off in one way, so both kinds of site ask about it
  have hdirect : s.registry.DirectSite m names c ↔ ∃ f ∈ f?, m.HasName f names := by
    constructor
    · rintro ⟨callee', f, hcall', hname', hf⟩
      cases hsite.inj hcall'
      exact ⟨f, hname'.inj hname, hf⟩
    · rintro ⟨f, hf, hnamed⟩
      cases hf
      exact ⟨callee, f, hsite, hname, hnamed⟩
  have hindirect : s.registry.IndirectSite m names c ↔
      f? = none ∧ ∃ g ∈ x.callees.toList, ∃ f, s.registry.Hosts g f ∧ m.HasName f names := by
    constructor
    · rintro ⟨callee', h, f, hcall', hname', ⟨x', hx', hc⟩, hf⟩
      cases hsite.inj hcall'
      rw [hx] at hx'
      cases hx'
      exact ⟨hname'.inj hname, h, hc, f, hf⟩
    · rintro ⟨rfl, h, hc, f, hf⟩
      exact ⟨callee, h, f, hsite, hname, ⟨x, hx, hc⟩, hf⟩
  rw [callMatches, hx, hdirect, hindirect]
  cases hempty : x.callees.isEmpty with
  | true =>
    -- without links only the name can match
    obtain ⟨b, hb, hiff⟩ := Module.exists_callsOneOf hvcall hname hfound names
    have hnone : ∀ g, g ∉ x.callees.toList := by
      have hnil : x.callees.toList = [] := List.isEmpty_iff.1 hempty
      simp [hnil]
    refine ⟨b, by simp only [hempty, hk, if_true, hb]; rfl, hiff.trans ?_⟩
    exact ⟨.inl, fun h => h.resolve_right fun ⟨_, h, hc, _⟩ => hnone h hc⟩
  | false =>
    obtain ⟨b, hb, hiff⟩ := hs.exists_anyNamed names x.callees.toList
    refine ⟨b, by simp [hempty, hb, Except.mapError], hiff.trans ?_⟩
    cases f? with
    | none => simp
    | some f =>
      -- all graphs that are linked are of the function that is named, and there is one
      have hhosts : ∀ h ∈ x.callees.toList, s.registry.Hosts h f :=
        fun h hc => hs.hosts_of_direct hsite hname ⟨x, hx, hc⟩
      have hsome : ∃ h, h ∈ x.callees.toList := by
        rw [OrderedSet.isEmpty] at hempty
        exact List.exists_mem_of_ne_nil _ (by simpa using hempty)
      constructor
      · rintro ⟨h, hc, f', ⟨z, hz, rfl⟩, hf⟩
        obtain ⟨z', hz', rfl⟩ := hhosts h hc
        rw [hz] at hz'
        cases hz'
        exact .inl ⟨_, rfl, hf⟩
      · rintro (⟨f', hf', hf⟩ | ⟨hf, _⟩)
        · cases hf'
          obtain ⟨h, hc⟩ := hsome
          exact ⟨h, hc, f, hhosts h hc, hf⟩
        · cases hf

/-- **Sites.** The calls that are found are those that are matched, each listed by a live graph. -/
theorem exists_callSites (hs : Reachable m s) (names : List String) :
    ∃ calls, s.registry.callSites m names = .ok calls ∧ ∀ c, c ∈ calls ↔
      s.registry.DirectSite m names c ∨ s.registry.IndirectSite m names c := by
  let calls := s.registry.liveGraphs.flatMap fun p => p.2.callNodes.toList
  -- only calls of live graphs are tested, so each test has an answer
  have hmatch : ∀ c ∈ calls, s.registry.callMatches m names c =
      .ok ((s.registry.callMatches m names c).toOption.getD false) := by
    intro c hc
    obtain ⟨callee, hcall⟩ := hs.listed_iff.1 hc
    obtain ⟨b, hb, _⟩ := hs.exists_callMatches names hcall
    rw [hb]
    rfl
  refine ⟨_, by rw [callSites]; simp only [calls, filterM_eq hmatch]; rfl, fun c => ?_⟩
  rw [OrderedSet.mem_ofList, List.mem_filter]
  have hsite : s.registry.DirectSite m names c ∨ s.registry.IndirectSite m names c →
      ∃ callee, s.registry.IsCallNode m c callee := by
    rintro (⟨callee, _, hcall, _⟩ | ⟨callee, _, _, hcall, _⟩) <;> exact ⟨callee, hcall⟩
  constructor
  · rintro ⟨hc, htest⟩
    obtain ⟨callee, hcall⟩ := hs.listed_iff.1 hc
    obtain ⟨b, hb, hiff⟩ := hs.exists_callMatches names hcall
    rw [hb] at htest
    exact hiff.1 htest
  · intro h
    obtain ⟨callee, hcall⟩ := hsite h
    obtain ⟨b, hb, hiff⟩ := hs.exists_callMatches names hcall
    refine ⟨hs.listed_iff.2 ⟨callee, hcall⟩, ?_⟩
    rw [hb]
    exact hiff.2 h

end Session.Reachable

/-! ## What is gathered -/

/-- After building steps the calls that were gathered are those that name the function. -/
theorem Account.mem_gathered_iff {e : Setup} {log : List Entry} {s : Session} {n : String}
    (h : Account e log s) (hs : Session.Reachable e.program s)
    (hn : e.settings.gathered = some n) (c : NodeId) :
    c ∈ s.registry.gathered ↔ s.registry.DirectSite e.program [n] c := by
  constructor
  · intro hc
    obtain ⟨g, _, v, hlisted, hk, callee, args, f, z, hcall, hname, hz, hgathered⟩ := h.sought c hc
    obtain ⟨_, y, _, _, _, hy, _, _, hlisted⟩ := hlisted
    obtain ⟨callee', hsite⟩ := hs.listed_iff.1
      (List.mem_flatMap.2 ⟨(g, y), mem_liveGraphs.2 hy, hlisted⟩)
    cases hsite.callee_eq hk hcall
    rw [hn] at hgathered
    cases hgathered
    exact ⟨callee, f, hsite, hname, z, hz, List.mem_singleton_self _⟩
  · intro hc
    obtain ⟨callee, f, ⟨g, y, v, args, hy, hv, hcall, hi, _⟩, hname, z, hz, hnamed⟩ := hc
    -- a graph that covers its function answers the call with the node that is indexed
    obtain ⟨c', hc'⟩ := (h.covered g y hy).called v callee args hv hcall
    have hsame : c' = c := by
      obtain ⟨_, x, y', _, hx, _, hy', hi', _⟩ := hc'.isCall
      obtain ⟨x', hx', hk⟩ := hc'.keyed
      rw [hx] at hx'
      cases hx'
      rw [hy] at hy'
      cases hy'
      rw [hk, hi] at hi'
      exact (Option.some.inj hi').symm
    have hnamed : some n = some z.name := congrArg some (List.mem_singleton.1 hnamed).symm
    have hgathers : e.Gathers v := ⟨callee, args, f, z, hcall, hname, hz, hn.trans hnamed⟩
    exact hsame ▸ hc'.gathered hgathers

namespace Session

/-- A construction may start with whatever is given. -/
theorem Reachable.of_setup (e : Setup) : Reachable e.program ⟨e, .empty⟩ := by
  -- what is not standard about the setup is set, one thing after the other
  have hset : Reachable e.program ⟨⟨e.program, e.settings, none, e.scopes⟩, .empty⟩ :=
    .step (.step .start (a := .setSettings e.settings) rfl) (a := .setScopes e.scopes) rfl
  obtain ⟨program, settings, pointsTo?, scopes⟩ := e
  cases pointsTo? with
  | none => exact hset
  | some p => exact .step hset (a := .setPointsTo p) rfl

/-- **Call sites.** After every run and for all names the calls that are found are the nodes of the
calls, in the bodies of live graphs, that name a function with one of the names, whatever became of
its graphs, and of those that name no function and are linked to a graph of a function with one of
the names. If the calls of a name are gathered from the start, and all steps build, each gathered
call is among the calls found for this name, and the others are just the calls that name no function
and are linked to a graph of a function with the name. -/
theorem call_sites_agree (m : Module) :
    (∀ s, Reachable m s → ∀ names, ∃ calls, s.registry.callSites m names = .ok calls ∧
      ∀ c, c ∈ calls ↔
        s.registry.DirectSite m names c ∨ s.registry.IndirectSite m names c) ∧
    ∀ e n log s, e.program = m → e.settings.gathered = some n → Run ⟨e, .empty⟩ log s →
      (∀ x ∈ log, x.step.Builds) → ∃ calls, s.registry.callSites m [n] = .ok calls ∧
        (∀ c ∈ s.registry.gathered, c ∈ calls) ∧
        ∀ c, c ∈ calls ∧ c ∉ s.registry.gathered ↔ s.registry.IndirectSite m [n] c := by
  refine ⟨fun s hs names => hs.exists_callSites names, ?_⟩
  intro e n log s hm hn hrun hbuilds
  subst hm
  have hs := hrun.reachable_after (.of_setup e)
  have hgathered := (hrun.account hbuilds).mem_gathered_iff hs hn
  obtain ⟨calls, hcalls, hmem⟩ := hs.exists_callSites [n]
  refine ⟨calls, hcalls, fun c hc => (hmem c).2 (.inl ((hgathered c).1 hc)), fun c => ?_⟩
  rw [hmem, hgathered]
  constructor
  · exact fun ⟨h, hdirect⟩ => h.resolve_left hdirect
  · -- no call does and does not name a function
    exact fun h => ⟨.inr h, fun hdirect => h.not_direct hdirect⟩

/-- In the small module the one call of the allocating function is gathered, and found. -/
theorem call_sites_agree_of_ticks : ∃ s c,
    (Session.step ⟨{ Setup.standard .ticks with
      settings := { Settings.standard with gathered := some "malloc" } }, .empty⟩ (.root none)).2 =
        .ok (.graph ⟨0⟩, s) ∧
      c ∈ s.registry.gathered ∧ (∃ callee, s.registry.IsCallNode .ticks c callee) ∧
      ∃ calls, s.registry.callSites .ticks ["malloc"] = .ok calls ∧ c ∈ calls := by
  let e : Setup := { Setup.standard .ticks with
    settings := { Settings.standard with gathered := some "malloc" } }
  have hgathers : (Session.step ⟨e, .empty⟩ (.root none)).2.toOption.any (fun p =>
      decide (p.1 = .graph ⟨0⟩) && !p.2.registry.gathered.isEmpty) = true := by decide +kernel
  obtain ⟨⟨o, s⟩, hstep, htest⟩ := exists_ok_of_any hgathers
  obtain ⟨ho, hnonempty⟩ := Bool.and_eq_true_iff.1 htest
  cases of_decide_eq_true ho
  have hsome : ∃ c, c ∈ s.registry.gathered.toList := by
    rw [OrderedSet.isEmpty] at hnonempty
    exact List.exists_mem_of_ne_nil _ (by simpa using hnonempty)
  obtain ⟨c, hc⟩ := hsome
  have hs : Run ⟨e, .empty⟩ [⟨.root none, .graph ⟨0⟩, s⟩] s := .cons .nil hstep
  have hbuilds : ∀ x ∈ [(⟨.root none, .graph ⟨0⟩, s⟩ : Entry)], x.step.Builds := by
    intro x hx
    rw [List.mem_singleton.1 hx]
    exact .root none
  obtain ⟨hfound, hagree⟩ := call_sites_agree .ticks
  obtain ⟨calls, hcalls, hsub, _⟩ := hagree e "malloc" _ s rfl rfl hs hbuilds
  have hc' := hsub c hc
  obtain ⟨calls', hcalls', hmem⟩ := hfound s (hs.reachable_after (.of_setup e)) ["malloc"]
  rw [hcalls] at hcalls'
  cases hcalls'
  refine ⟨s, c, hstep, hc, ?_, calls, hcalls, hc'⟩
  rcases (hmem c).1 hc' with ⟨callee, _, hcall, _⟩ | ⟨callee, _, _, hcall, _⟩ <;>
    exact ⟨callee, hcall⟩

end Session

end Sdg
