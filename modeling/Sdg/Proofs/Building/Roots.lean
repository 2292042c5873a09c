import Sdg.Proofs.Building.Requests
import Sdg.Proofs.Teardown.Survival

/-!
# Roots

A root is built like the graph of a callee, but it keeps the reference that it was made with. If it
is there already, it gets one reference more. A root without a body is torn down again, and since
nothing was ever linked to it the registry looks as before, but for the name that was spent on it.

Main result:

* `constructRoot_spec` — a root lets the registry evolve, and then is held once more or is refused.
-/

namespace Sdg

open scoped Classical

theorem Node.without_eq_self {x : Node} {N : Set NodeId} {D : Set GraphId} (hN : ∀ n, n ∉ N)
    (hD : ∀ h ∈ x.callees, h ∉ D) : x.without N D = x := by
  have hedges : ∀ s : OrderedSet NodeId, s.filter (fun k => decide (k ∉ N)) = s :=
    fun s => OrderedSet.filter_eq_self fun k _ => by simp [hN k]
  have hcallees : x.callees.filter (fun h => decide (h ∉ D)) = x.callees :=
    OrderedSet.filter_eq_self fun h hh => by simp [hD h hh]
  unfold Node.without
  rw [hedges, hedges, hedges, hedges, hcallees]

theorem Graph.without_eq_self {y : Graph} {N : Set NodeId} (hN : ∀ n, n ∉ N) :
    y.without N 0 = y := by
  have hcallers : y.callers.filter (fun k => decide (k ∉ N)) = y.callers :=
    OrderedSet.filter_eq_self fun k _ => by simp [hN k]
  unfold Graph.without
  rw [hcallers, Nat.sub_zero]

/-- The numbers that are spent on a root that is refused: the graph of a function without a body was
there for a moment. -/
def RootError.spent : RootError → Nat
  | .unknown _ => 0
  | .declaration _ => 1

namespace Registry

variable {m : Module} {r t : Registry} {f : FunctionId} {D : Set GraphId}

/-- A graph that was made and torn down again leaves no trace but its name. -/
theorem Remains.of_fresh (hr : (r.pushGraph (.fresh f)).Orderly m)
    (hD : IsLeast {S | (r.pushGraph (.fresh f)).Falls r.nextGraph S} D)
    (hrem : (r.pushGraph (.fresh f)).Remains D t) :
    t.node? = r.node? ∧ t.graph? = r.graph? ∧ t.pool = r.pool := by
  have hg : (r.pushGraph (.fresh f)).graph? r.nextGraph = some (.fresh f) := by simp
  -- it has no nodes and no callers
  have hnodes : ∀ n, n ∉ (r.pushGraph (.fresh f)).nodesOf {r.nextGraph} := by
    intro n hn
    obtain ⟨_, rfl, y, hy, hn⟩ := hn
    rw [hg] at hy
    cases hy
    rcases hn with hn | hn | ⟨c, _, hc, _⟩
    · cases hn
    · cases hn
    · cases hc
  have hcalls : ∀ c, ¬ (r.pushGraph (.fresh f)).Calls c r.nextGraph := by
    intro c hc
    obtain ⟨y, hy, hcy⟩ := (hr.mirrored.calls c _).1 hc
    rw [hg] at hy
    cases hy
    exact OrderedSet.not_mem_empty c hcy
  have hfrom : ∀ h, (r.pushGraph (.fresh f)).callsFrom {r.nextGraph} h = ∅ := by
    intro h
    rw [Set.eq_empty_iff_forall_notMem]
    intro c hp
    obtain ⟨_, hown⟩ := hp
    exact hnodes c ((hr.mem_nodesOf_iff _).2 hown)
  -- so it falls alone
  have halone : (r.pushGraph (.fresh f)).Falls r.nextGraph {r.nextGraph} := by
    refine ⟨rfl, fun h y _ hpos hle => ?_⟩
    rw [hfrom h, Set.ncard_empty] at hle
    omega
  -- it is in every set that falls with it
  have hDg : D = {r.nextGraph} :=
    Set.Subset.antisymm (hD.2 halone) (Set.singleton_subset_iff.2 hD.1.start)
  subst hDg
  refine ⟨?_, ?_, hrem.pool⟩
  · funext n
    have hn : t.node? n = (r.node? n).map (·.without
        ((r.pushGraph (.fresh f)).nodesOf {r.nextGraph}) {r.nextGraph}) := by
      simpa using hrem.node n (hnodes n)
    rw [hn]
    cases hx : r.node? n with
    | none => rfl
    | some x =>
      rw [Option.map_some, Node.without_eq_self hnodes]
      intro h hh hhg
      rw [Set.mem_singleton_iff.1 hhg] at hh
      exact hcalls n ⟨x, hx, hh⟩
  · funext h
    by_cases hh : h = r.nextGraph
    · rw [hrem.gone h hh, hh, graph?_nextGraph]
    · rw [hrem.graph h hh, hfrom h, Set.ncard_empty, graph?_pushGraph, if_neg hh]
      cases hy : r.graph? h with
      | none => rfl
      | some y => rw [Option.map_some, Graph.without_eq_self hnodes]

/-- One more name of a graph is spent, and nothing else is different. -/
structure Spends (r t : Registry) : Prop where
  nodes : t.nodes = r.nodes
  graph : t.graph? = r.graph?
  lookup : t.lookup? = r.lookup?
  pool : t.pool = r.pool
  gathered : t.gathered = r.gathered
  next : t.graphs.next = r.graphs.next + 1

theorem Spends.node? (h : r.Spends t) : t.node? = r.node? := by
  funext n
  rw [Registry.node?, h.nodes, Registry.node?]

/-- A graph that was registered and torn down again has spent its name. -/
theorem Remains.spends (henrolled : r.Enrolled) (hr : (r.pushGraph (.fresh f)).Orderly m)
    (hD : IsLeast {S | (r.pushGraph (.fresh f)).Falls r.nextGraph S} D)
    (h : (r.pushGraph (.fresh f)).Remains D t) : r.Spends t := by
  obtain ⟨hnode, hgraph, hpool⟩ := h.of_fresh hr hD
  constructor
  case nodes =>
    exact Arena.ext_get? (congrArg NodeId.index h.nextNode) fun i => congrFun hnode ⟨i⟩
  case graph => exact hgraph
  case lookup => exact henrolled.lookup?_eq (h.enrolled hr) fun g => by rw [hgraph]
  case pool => exact hpool
  case gathered => exact h.gathered
  case next => exact (congrArg GraphId.index h.nextGraph).trans (Arena.next_push _ _)

end Registry

namespace Work

open Registry

variable {e : Setup} {r : Registry} {f : FunctionId}

/-- A graph that is torn down as soon as it is registered has spent its name. -/
theorem destroy_fresh_spec (hr : r.Orderly e.program) (hf : r.lookup? f = none) :
    wp Fault.Never (destroy r.nextGraph) (fun _ t => r.Spends t) (r.pushGraph (.fresh f)) := by
  have hg : (r.pushGraph (.fresh f)).graph? r.nextGraph = some (.fresh f) := by simp
  have hpush : (r.pushGraph (.fresh f)).Orderly e.program := hr.change (.quiet (.graph hf))
  refine wp_mono (destroy_spec hpush hg) fun _ t ht => ?_
  obtain ⟨D, hD, hrem⟩ := ht
  exact hrem.spends hr.enrolled hpush hD

/-- A build that keeps its reference is an evolution, after which the graph is held once more. -/
theorem Builds.evolves_of_root {s : Registry} (hr : r.Orderly e.program) (hf : r.lookup? f = none)
    (h : Builds e (r.pushGraph (.fresh f)) r.nextGraph s) :
    ∃ s', Evolves e r s' {f} ∧ s'.Hosts r.nextGraph f ∧
      s = s'.reviseGraph r.nextGraph fun y => { y with refcount := y.refcount + 1 } := by
  obtain ⟨y, hy, _, _, hcount⟩ := h.built
  have hhosts : (r.pushGraph (.fresh f)).Hosts r.nextGraph f := ⟨.fresh f, by simp, rfl⟩
  have hgiven := hosts_reviseGraph (r := s) (g := r.nextGraph)
    (f := fun y => { y with refcount := y.refcount - 1 }) (k := f) (i := r.nextGraph)
    fun _ => rfl
  refine ⟨s.reviseGraph r.nextGraph fun y => { y with refcount := y.refcount - 1 },
    h.evolves hr hf, hgiven.2 (hhosts.grows h.changes.grows), ?_⟩
  -- a reference that is given back and taken again
  rw [reviseGraph_reviseGraph]
  refine (reviseGraph_eq_self fun z hz => ?_).symm
  rw [hy] at hz
  cases hz
  have hpos : y.refcount - 1 + 1 = y.refcount := by omega
  rw [hpos]

/-- What asking for a root does. -/
inductive Roots (e : Setup) (name : String) (r : Registry) :
    Except RootError GraphId → Registry → Prop where
  /-- The graph of the function is there, and is held once more. -/
  | held {f : FunctionId} {g : GraphId} {s : Registry} : e.program.functionNamed? name = some f →
      Evolves e r s {f} → s.Hosts g f →
      Roots e name r (.ok g) (s.reviseGraph g fun y => { y with refcount := y.refcount + 1 })
  | refused {x : RootError} {s t : Registry} : Evolves e r s → t.node? = s.node? →
      t.graph? = s.graph? → t.pool = s.pool → t.lookup? = s.lookup? → t.gathered = s.gathered →
      t.graphs.next = s.graphs.next + x.spent →
      Roots e name r (.error x) t

/-- **Roots.** A root lets the registry evolve, and then is held once more or is refused. -/
theorem constructRoot_spec (hr : r.Orderly e.program) (name : String) :
    wp Fault.Genuine (constructRoot e name) (Roots e name r) r := by
  unfold constructRoot
  split
  · -- no function has this name
    exact wp_report (wp_pure (.refused (.refl e r) rfl rfl rfl rfl rfl rfl))
  · rename_i f hname
    apply wp_bind (evolving_addGlobals r hr)
    intro _ r₁ h₁
    have hr₁ := h₁.orderly hr
    apply wp_registry
    cases hf : r₁.lookup? f with
    | some g =>
      unfold retain
      apply wp_updateGraph
      intro _ _
      exact wp_pure (.held hname (h₁.mono (Set.empty_subset _)) (hr₁.enrolled.hosts hf))
    | none =>
      have hpush : Quiet e.program r₁ (r₁.pushGraph (.fresh f)) := .graph hf
      have hr₂ := hr₁.change (.quiet hpush)
      have hg : (r₁.pushGraph (.fresh f)).graph? r₁.nextGraph = some (.fresh f) := by simp
      apply wp_report
      apply wp_newGraph hf
      -- with the root registered no more builds are left than the module has functions
      have hpending : f.index < e.program.functions.size →
          (r₁.pushGraph (.fresh f)).pending e.program < e.program.functions.size + 1 := by
        intro _
        have hle := (r₁.pushGraph (.fresh f)).pending_le e.program
        omega
      apply wp_bind (buildWith_spec (requests e _) hr₂ hg hpending)
      intro isBuilt s hs
      obtain ⟨hfalse, htrue⟩ := hs
      cases isBuilt with
      | true =>
        apply wp_registry
        apply wp_report
        apply wp_pure
        obtain ⟨s', hs', hhosts, rfl⟩ := (htrue rfl).evolves_of_root hr₁ hf
        exact .held hname ((h₁.mono (Set.empty_subset _)).trans hs') hhosts
      | false =>
        -- a function without a body: nothing was built
        have hs := hfalse rfl
        subst hs
        apply wp_bind (wp_fault (destroy_fresh_spec hr₁ hf) fun _ => False.elim)
        intro _ t ht
        exact wp_pure (.refused h₁ ht.node? ht.graph ht.pool ht.lookup ht.gathered ht.next)

end Work

end Sdg
