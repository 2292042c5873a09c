import Sdg.Proofs.Registry.Inventory
import Sdg.Proofs.Session.Log

/-!
# What building covers

Which functions have a graph depends on what was asked for. Builds nest, call back and find graphs
that are under way, and some functions are reached on many ways. In the end it is as if the calls
had been followed from the functions that were asked for, each function once: what a call may run is
told by the module, the settings and the pointees that are given, and nothing else is linked.

That nothing is missing is kept by every evolution: a graph that is finished answers all its calls.
That nothing is added is kept by every change: a link is made for a call that may run what it goes
to. And names of graphs are not spent on anything but graphs that stay, except for roots that are
refused.

Main results:

* `Session.Run.account` — what building steps keep, told by what was asked for;
* `Session.Run.covers` — after building steps the live graphs are those of the functions that can be
  reached from what was asked for, each built once and with its calls linked to just their targets.
-/

namespace Sdg

open Registry Relation

/-! ## What is asked for -/

/-- A step asks for the function `f` and is answered by a graph. -/
inductive Step.Asks (e : Setup) (f : FunctionId) : Step → Outcome → Prop where
  | root {name? : Option String} {g : GraphId} :
      e.program.functionNamed? (name?.getD e.settings.entry) = some f →
      Asks e f (.root name?) (.graph g)
  | getOrBuild {o : Outcome} : Asks e f (.getOrBuild f) o

/-- The functions that were asked for, and answered by graphs. -/
def asked (e : Setup) (log : List Entry) : Set FunctionId :=
  {f | ∃ x ∈ log, x.step.Asks e f x.outcome}

/-- The names that were spent on a graph that is there no more. -/
def Outcome.spent : Outcome → Nat
  | .failed x => x.spent
  | _ => 0

variable {e : Setup} {r s t : Registry} {a : Step} {o : Outcome} {g h : GraphId} {f : FunctionId}
  {c : NodeId} {v : ValueId}

/-! ## How many graphs there are -/

namespace Registry

theorem mem_graphNames : g ∈ r.liveGraphs.map Prod.fst ↔ ∃ y, r.graph? g = some y := by
  rw [List.mem_map]
  constructor
  · intro hp
    obtain ⟨⟨k, y⟩, hy, rfl⟩ := hp
    exact ⟨y, mem_liveGraphs.1 hy⟩
  · intro hp
    obtain ⟨y, hy⟩ := hp
    exact ⟨(g, y), mem_liveGraphs.2 hy, rfl⟩

/-- As many graphs are entered as are live. -/
theorem Enrolled.graphCount_eq (hr : r.Enrolled) :
    r.graphCount = (r.liveGraphs.map Prod.fst).length := by
  have hentered : r.byFunction.values.Nodup := OrderedMap.nodup_values fun _ _ _ => hr.function_eq
  have hperm : r.byFunction.values.Perm (r.liveGraphs.map Prod.fst) := by
    refine (List.perm_ext_iff_of_nodup hentered r.nodup_graphNames).2 fun g => ?_
    rw [OrderedMap.mem_values, mem_graphNames]
    constructor
    · rintro ⟨f, hf⟩
      obtain ⟨y, hy, _⟩ := (hr f g).1 hf
      exact ⟨y, hy⟩
    · rintro ⟨y, hy⟩
      exact ⟨y.function, (hr _ g).2 ⟨y, hy, rfl⟩⟩
  rw [graphCount, ← OrderedMap.length_values, hperm.length_eq]

/-- The number of graphs depends on which are live alone. -/
theorem graphCount_congr (ht : t.Enrolled) (hs : s.Enrolled)
    (hl : ∀ g, (∃ y, t.graph? g = some y) ↔ ∃ y, s.graph? g = some y) :
    t.graphCount = s.graphCount := by
  rw [ht.graphCount_eq, hs.graphCount_eq]
  refine List.Perm.length_eq ?_
  refine (List.perm_ext_iff_of_nodup t.nodup_graphNames s.nodup_graphNames).2 fun g => ?_
  rw [mem_graphNames, mem_graphNames, hl]

/-- There is a graph more for each name that was given out. -/
theorem Numbers.graphCount_add (hn : r.Numbers s) (hr : r.Enrolled) (hs : s.Enrolled) :
    s.graphCount + r.graphs.next = r.graphCount + s.graphs.next := by
  have hle := hn.next
  let fresh := (List.range' r.graphs.next (s.graphs.next - r.graphs.next)).map GraphId.mk
  have hmem : ∀ g, g ∈ fresh ↔ r.graphs.next ≤ g.index ∧ g.index < s.graphs.next := by
    intro g
    obtain ⟨i⟩ := g
    simp [fresh, List.mem_range'_1]
    omega
  have hnodup : fresh.Nodup :=
    List.Nodup.map (fun _ _ he => GraphId.mk.inj he) List.nodup_range'
  -- the names of the graphs that were there, and the new ones
  have hperm : (s.liveGraphs.map Prod.fst).Perm (r.liveGraphs.map Prod.fst ++ fresh) := by
    refine (List.perm_ext_iff_of_nodup s.nodup_graphNames
      (r.nodup_graphNames.append hnodup ?_)).2 fun g => ?_
    · intro g hg hg'
      obtain ⟨y, hy⟩ := mem_graphNames.1 hg
      have hlt : g.index < r.graphs.next := Arena.lt_next_of_get? hy
      have hge := ((hmem g).1 hg').1
      omega
    · rw [List.mem_append, mem_graphNames, mem_graphNames, hmem, hn.live]
  have hlength := hperm.length_eq
  rw [List.length_append, ← hr.graphCount_eq, ← hs.graphCount_eq, List.length_map,
    List.length_range'] at hlength
  omega

end Registry

/-! ## Steps that build -/

/-- What a step leaves that builds: an evolution towards what it asks for, as far as it can be seen
which function has which graph. -/
structure Registry.Extends (e : Setup) (r : Registry) (a : Step) (o : Outcome) (s t : Registry) :
    Prop where
  evolves : Evolves e r s {f | a.Asks e f o}
  served : ∀ f, a.Asks e f o → ∃ g, s.Hosts g f
  hosts : ∀ g f, t.Hosts g f ↔ s.Hosts g f
  next : t.graphs.next = s.graphs.next + o.spent

theorem Registry.Effect.exists_extends (hb : a.Builds) (h : r.Effect e a o t) :
    ∃ s, r.Extends e a o s t := by
  cases hb with
  | root name? =>
    cases h with
    | @held _ g _ h =>
      cases h with
      | @held f _ s hname hev hosts =>
        -- a root asks for the function of its name alone
        have hf : ∀ k, Step.Asks e k (.root name?) (.graph g) → k = f := by
          intro k hk
          cases hk with
          | root hk => exact Option.some.inj (hk.symm.trans hname)
        refine ⟨s, hev.mono (Set.singleton_subset_iff.2 (.root hname)), fun k hk => ?_,
          fun _ _ => hosts_reviseGraph fun _ => rfl, ?_⟩
        · exact ⟨g, hf k hk ▸ hosts⟩
        · exact congrArg GraphId.index (nextGraph_reviseGraph s g _)
    | refused h =>
      cases h with
      | @refused x s _ hev _ hgraph _ _ _ hnext =>
        refine ⟨s, hev.mono (Set.empty_subset _), nofun, fun g f => ?_, hnext⟩
        rw [Hosts, hgraph, ← Hosts]
  | getOrBuild f =>
    cases h with
    | @given _ g _ hev hosts =>
      refine ⟨t, hev.mono (Set.singleton_subset_iff.2 .getOrBuild), fun k hk => ?_,
        fun _ _ => Iff.rfl, rfl⟩
      cases hk
      exact ⟨g, hosts⟩

/-! ## Accounts -/

/-- The links are made for calls that may run what they go to. -/
def Registry.Resolved (e : Setup) (r : Registry) : Prop :=
  ∀ c h, r.Calls c h → ∃ g, r.MayCall e c g h

theorem Registry.Resolved.changes (hr : r.Resolved e) (h : Changes e r s) : s.Resolved e := by
  induction h with
  | refl => exact hr
  | tail _ hc ih =>
    intro c h hcalls
    rcases hc.calls hcalls with hold | ⟨g, _, hmay⟩
    · obtain ⟨g, hmay⟩ := ih c h hold
      exact ⟨g, hmay.grows hc.grows⟩
    · exact ⟨g, hmay.grows hc.grows⟩

/-- What building steps keep, told by what was asked for. -/
structure Account (e : Setup) (log : List Entry) (s : Session) : Prop where
  setup : s.setup = e
  steady : s.registry.Steady e.program
  covered : ∀ g y, s.registry.graph? g = some y → Covered e s.registry g y
  resolved : s.registry.Resolved e
  sought : ∀ c ∈ s.registry.gathered, s.registry.Gathers e c
  rooted : ∀ g f, s.registry.Hosts g f → ∃ k ∈ asked e log, ReflTransGen e.Runs k f
  served : ∀ k ∈ asked e log, ∃ g, s.registry.Hosts g k
  kept : ∀ x ∈ log, ∀ g f, x.after.registry.Hosts g f → s.registry.Hosts g f
  counted : s.registry.graphs.next =
    s.registry.graphCount + (log.map fun x => x.outcome.spent).sum

theorem Account.start (e : Setup) : Account e [] ⟨e, .empty⟩ where
  setup := rfl
  steady := .empty _
  covered _ _ hy := by cases hy
  resolved _ _ hc := by
    obtain ⟨_, hx, _⟩ := hc
    cases hx
  sought c hc := absurd hc (OrderedSet.not_mem_empty c)
  rooted _ _ hosts := by
    obtain ⟨_, hy, _⟩ := hosts
    cases hy
  served _ hk := by
    obtain ⟨_, hx, _⟩ := hk
    cases hx
  kept _ hx := by cases hx
  counted := rfl

/-- What was asked for before a step and by it. -/
theorem mem_asked_cons {x : Entry} {log : List Entry} :
    f ∈ asked e (x :: log) ↔ x.step.Asks e f x.outcome ∨ f ∈ asked e log := by
  simp [asked]

/-- One more step that builds. -/
theorem Account.cons {log : List Entry} {t u : Session} (h : Account e log t) (hb : a.Builds)
    (hstep : (t.step a).2 = .ok (o, u)) : Account e (⟨a, o, u⟩ :: log) u := by
  have hsetup : u.setup = e := by
    rw [Session.setup_of_step hstep, ← h.setup]
    cases hb <;> rfl
  have hr : t.registry.Orderly t.setup.program := h.setup ▸ h.steady.orderly
  have heffect := Session.effect hr hstep
  have hripens := heffect.ripens hr hb
  obtain ⟨s, hs⟩ := heffect.exists_extends hb
  rw [h.setup] at hripens hs
  -- graphs stay, and are graphs of the same functions
  have hkeep : ∀ g f, t.registry.Hosts g f → u.registry.Hosts g f :=
    fun g f hosts => (hs.hosts g f).2 (hosts.grows hs.evolves.grows)
  constructor
  case setup => exact hsetup
  case steady => exact h.steady.ripens hripens
  case covered => exact hripens.covered h.covered
  case resolved => exact h.resolved.changes hripens.changes
  case sought =>
    intro c hc
    rcases hripens.collects.added c hc with hold | hnew
    · exact (h.sought c hold).grows hripens.changes.grows
    · exact hnew
  case rooted =>
    intro g f hosts
    obtain ⟨y, hy, rfl⟩ := (hs.hosts g f).1 hosts
    cases hz : t.registry.graph? g with
    | some z =>
      -- the graph was there before
      obtain ⟨y', hy', hgrows⟩ := hs.evolves.grows.graph g z hz
      rw [hy] at hy'
      cases hy'
      obtain ⟨k, hk, hreach⟩ := h.rooted g y.function ⟨z, hz, hgrows.function.symm⟩
      exact ⟨k, mem_asked_cons.2 (Or.inr hk), hreach⟩
    | none =>
      -- what leads to a new graph was asked for by this step, or had a graph before
      obtain ⟨k, hk | ⟨i, hi⟩, hreach⟩ := hs.evolves.rooted g y hz hy
      · exact ⟨k, mem_asked_cons.2 (Or.inl hk), hreach⟩
      · obtain ⟨j, hj, hreach'⟩ := h.rooted i k hi
        exact ⟨j, mem_asked_cons.2 (Or.inr hj), hreach'.trans hreach⟩
  case served =>
    intro k hk
    rcases mem_asked_cons.1 hk with hk | hk
    · obtain ⟨g, hosts⟩ := hs.served k hk
      exact ⟨g, (hs.hosts g k).2 hosts⟩
    · obtain ⟨g, hosts⟩ := h.served k hk
      exact ⟨g, hkeep g k hosts⟩
  case kept =>
    intro x hx g f hosts
    rcases List.mem_cons.1 hx with rfl | hx
    · exact hosts
    · exact hkeep g f (h.kept x hx g f hosts)
  case counted =>
    have hlive : ∀ g, (∃ y, u.registry.graph? g = some y) ↔ ∃ y, s.graph? g = some y := by
      intro g
      have hiff := exists_congr fun f => hs.hosts g f
      simpa [Hosts] using hiff
    have hso : s.Orderly t.setup.program := by
      rw [h.setup] at hr ⊢
      exact hs.evolves.orderly hr
    have huo := (h.steady.ripens hripens).orderly
    have hcount := hs.evolves.numbers.graphCount_add hr.enrolled hso.enrolled
    have hold := h.counted
    rw [hs.next, graphCount_congr huo.enrolled hso.enrolled hlive, List.map_cons, List.sum_cons]
    -- what this step spent is the first of the sum
    show s.graphs.next + o.spent = s.graphCount + (o.spent + _)
    omega

namespace Session

variable {log : List Entry} {s : Session}

/-- **Account.** What holds after any run of building steps. -/
theorem Run.account (hs : Run ⟨e, .empty⟩ log s) (hb : ∀ x ∈ log, x.step.Builds) :
    Account e log s := by
  induction hs with
  | nil => exact .start e
  | cons _ hstep ih =>
    exact (ih fun x hx => hb x (List.mem_cons_of_mem _ hx)).cons (hb _ List.mem_cons_self) hstep

end Session

/-- The live graphs are those of the functions that can be reached from what was asked for. -/
theorem Account.hosts_iff {log : List Entry} {s : Session} (h : Account e log s) :
    (∃ g, s.registry.Hosts g f) ↔ ∃ k ∈ asked e log, ReflTransGen e.Runs k f := by
  constructor
  · intro hp
    obtain ⟨g, hosts⟩ := hp
    exact h.rooted g f hosts
  · intro hp
    obtain ⟨k, hk, hreach⟩ := hp
    induction hreach with
    | refl => exact h.served k hk
    | tail _ hruns ih =>
      -- a graph that covers its function is linked to the graphs of all that it runs
      obtain ⟨g, y, hy, rfl⟩ := ih
      obtain ⟨i, _, hosts⟩ := (h.covered g y hy).served _ hruns
      exact ⟨i, hosts⟩

/-- A call in a body has one node among the calls of the graph. -/
theorem Account.call_unique {log : List Entry} {s : Session} (h : Account e log s) {y : Graph}
    {c c' : NodeId} (hy : s.registry.graph? g = some y) (hc : c ∈ y.callNodes)
    (hv : s.registry.Keyed c (.value v)) (hc' : c' ∈ y.callNodes)
    (hv' : s.registry.Keyed c' (.value v)) : c' = c := by
  have hr := h.steady.orderly
  -- a listed call is indexed under its own key
  have hindex : ∀ {c}, c ∈ y.callNodes → s.registry.Keyed c (.value v) →
      y.index.get? (.value v) = some c := by
    intro c hc hv
    obtain ⟨w, _, _, hw, _⟩ := (hr.shaped g y hy).calls c hc
    obtain ⟨x, hx, hk, _⟩ := hr.housed.live (.index g (.value w)) c (by rw [occupant, hy]; exact hw)
    obtain ⟨x', hx', hk'⟩ := hv
    rw [hx] at hx'
    cases hx'
    rw [hk] at hk'
    rwa [← hk']
  exact Option.some.inj ((hindex hc' hv').symm.trans (hindex hc hv))

/-- A call is linked to the graphs of what it may run, and to no other. -/
theorem Account.calls_iff {log : List Entry} {s : Session} (h : Account e log s)
    (hv : s.registry.Keyed c (.value v)) (hlinked : ∀ f, e.MayRun v f → s.registry.LinkedTo c f)
    (k : GraphId) : s.registry.Calls c k ↔ ∃ f, e.MayRun v f ∧ s.registry.Hosts k f := by
  constructor
  · intro hc
    obtain ⟨g, w, x, y, z, hx, hk, hy, hz, _, hmay⟩ := h.resolved c k hc
    obtain ⟨x', hx', hk'⟩ := hv
    rw [hx] at hx'
    cases hx'
    rw [hk] at hk'
    cases hk'
    exact ⟨z.function, hmay, z, hz, rfl⟩
  · intro hp
    obtain ⟨f, hmay, z, hz, rfl⟩ := hp
    -- the function has but one graph
    obtain ⟨i, hi, z', hz', hf⟩ := hlinked _ hmay
    have hik := h.steady.orderly.enrolled.distinct hz' hz hf
    rwa [← hik]

namespace Session

variable {log : List Entry} {s : Session}

/-- **Coverage.** After any run of building steps the functions with a live graph are those that can
be reached, by what calls may run, from the functions that were asked for. All graphs are built.
Each call in the body of their functions has one node among the calls, and is linked to the graphs
of what it may run and to no other. No function has two graphs, a graph stays the graph of its
function, and there is no name of a graph but of live ones and of those of roots that were refused:
so a graph is made once for each function. -/
theorem Run.covers (hs : Run ⟨e, .empty⟩ log s) (hb : ∀ x ∈ log, x.step.Builds) :
    (∀ f, (∃ g, s.registry.Hosts g f) ↔ ∃ k ∈ asked e log, ReflTransGen e.Runs k f) ∧
    (∀ g y, s.registry.graph? g = some y → y.phase = .built ∧
      ∀ v callee args, e.program.InBody y.function v → e.program.IsCallOf v callee args →
        ∃ c ∈ y.callNodes, s.registry.Keyed c (.value v) ∧
          (∀ c' ∈ y.callNodes, s.registry.Keyed c' (.value v) → c' = c) ∧
          ∀ h, s.registry.Calls c h ↔ ∃ f, e.MayRun v f ∧ s.registry.Hosts h f) ∧
    (∀ g h f, s.registry.Hosts g f → s.registry.Hosts h f → g = h) ∧
    (∀ x ∈ log, ∀ g f, x.after.registry.Hosts g f → s.registry.Hosts g f) ∧
    s.registry.graphs.next =
      s.registry.graphCount + (log.map fun x => x.outcome.spent).sum := by
  have hacc := hs.account hb
  refine ⟨fun f => hacc.hosts_iff, fun g y hy => ⟨hacc.steady.built g y hy, ?_⟩, ?_, hacc.kept,
    hacc.counted⟩
  · intro v callee args hv hcall
    -- a covered graph has a node for the call, and the index has no second one
    obtain ⟨c, hc⟩ := (hacc.covered g y hy).called v callee args hv hcall
    have hkey := hc.keyed
    obtain ⟨_, _, y', _, _, _, hy', _, _, hlisted⟩ := hc.isCall
    rw [hy] at hy'
    cases hy'
    exact ⟨c, hlisted, hkey, fun c' hc' hkey' => hacc.call_unique hy hlisted hkey hc' hkey',
      hacc.calls_iff hkey hc.linked⟩
  · intro g h f hg hh
    obtain ⟨y, hy, rfl⟩ := hg
    obtain ⟨z, hz, hf⟩ := hh
    exact hacc.steady.orderly.enrolled.distinct hy hz hf.symm

/-- Only `main` was asked for, and `tick` has a graph: so it can be reached from there. -/
theorem Run.covers_tick : ∃ o s, ((Session.start .ticks).step (.root none)).2 = .ok (o, s) ∧
    ∃ k ∈ asked (.standard .ticks) [⟨.root none, o, s⟩],
      ReflTransGen (Setup.standard .ticks).Runs k ⟨1⟩ := by
  have hhosts : ((Session.start .ticks).step (.root none)).2.toOption.any (fun p =>
      (p.2.registry.graph? ⟨1⟩).any fun y => decide (y.function = ⟨1⟩)) = true := by decide +kernel
  obtain ⟨⟨o, s⟩, hstep, htest⟩ := exists_ok_of_any hhosts
  obtain ⟨y, hy, hf⟩ := (Option.any_eq_true _ _).1 htest
  have hs : Session.Run ⟨.standard .ticks, .empty⟩ [⟨.root none, o, s⟩] s := .cons .nil hstep
  have hb : ∀ x ∈ [(⟨.root none, o, s⟩ : Entry)], x.step.Builds := by
    intro x hx
    rw [List.mem_singleton.1 hx]
    exact .root none
  exact ⟨o, s, hstep, ((hs.covers hb).1 ⟨1⟩).1 ⟨⟨1⟩, y, hy, of_decide_eq_true hf⟩⟩

end Session

end Sdg
