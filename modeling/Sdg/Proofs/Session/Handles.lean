import Mathlib.Data.Set.Card
import Sdg.Proofs.Portrait.Builds
import Sdg.Proofs.Session.Coverage
import Sdg.Proofs.Session.Teardown

/-!
# Handles

The name of a graph or a node is a handle that is kept while other steps are taken. A step draws the
graphs that it makes and leaves the layout of all others as it is, and it hands out names in
increasing order. So a handle means the same for as long as it means anything, and a function that
has a graph is answered by it.

Main results:

* `Session.draws_of_step`, `Session.Run.ages` — what a step, or a run, does to what was there;
* `Session.Reachable.pooled` — the pool is filled before the first graph is built;
* `Session.Run.handles` — lookups tell all live graphs and no others, and names are never used
  again.
-/

namespace Sdg

open Registry Relation

/-! ## Steps -/

/-- What a step does to what was there: it ages, keeps its layout, and new graphs are drawn. -/
structure Registry.Draws (e : Setup) (r t : Registry) : Prop where
  ages : r.Ages t
  kept : ∀ g y z, r.graph? g = some y → t.graph? g = some z → z.layout = y.layout
  drawn : ∀ g z, r.graph? g = none → t.graph? g = some z → t.Drawn e z

theorem Registry.Course.draws {e : Setup} {r t : Registry} (h : Course e ∅ r t) : r.Draws e t :=
  ⟨h.ages, fun g => h.kept g (Set.notMem_empty g), fun g => h.drawn g (Set.notMem_empty g)⟩

namespace Session

variable {m : Module} {s t : Session} {a : Step} {o : Outcome} {log : List Entry}

/-- What a step does to the registry: nothing, or it starts with a graph and no new layouts come, or
it fills the pool and builds. -/
inductive Turns (e : Setup) (r : Registry) : Registry → Prop where
  | rests : Turns e r r
  | calm {g : GraphId} {y : Graph} {t : Registry} : r.graph? g = some y → r.Calm t → Turns e r t
  | builds {t : Registry} : Course e ∅ (r.withGlobals e.program.globals) t → Turns e r t

theorem turns (h : (s.step a).2 = .ok (o, t)) : Turns s.setup s.registry t.registry := by
  suffices hw : Work.wp Fault.Any (s.work a) (fun _ r => Turns s.setup s.registry r) s.registry from
    of_step hw h
  cases a with
  | root name? =>
    refine Work.wp_bind (Work.constructRoot_course (e := s.setup)) fun root? r hr => ?_
    -- a start that is refused before anything is built leaves all as it is
    have hturns : Turns s.setup s.registry r := by
      rcases hr.2 with rfl | hc
      · exact .rests
      · exact .builds hc
    cases root? with
    | ok g => exact Work.wp_pure hturns
    | error x => exact Work.wp_pure hturns
  | getOrBuild f =>
    exact Work.wp_bind (Work.getOrBuild_course (e := s.setup)) fun _ _ hc =>
      Work.wp_pure (.builds hc)
  | retain g =>
    have hretain : Work.wp Fault.Any (Work.retain g) (fun _ r => Turns s.setup s.registry r)
        s.registry := by
      refine Work.wp_fault (Work.wp_last (Work.wp_updateGraph fun y hy => Work.wp_pure ?_))
        fun _ _ => trivial
      exact .calm hy (.reviseGraph fun _ => rfl)
    exact Work.wp_bind hretain fun _ _ hr => Work.wp_pure hr
  | release g =>
    have hrelease : Work.wp Fault.Any (Work.release g) (fun _ r => Turns s.setup s.registry r)
        s.registry := by
      -- giving back a reference to a graph that is gone is no error and does nothing
      cases hy : s.registry.graph? g with
      | none =>
        unfold Work.release Work.unref Work.unrefWith
        refine Work.wp_registry ?_
        rw [hy]
        exact Work.wp_pure .rests
      | some y =>
        exact Work.wp_mono (Work.calm_unref _ (.refl _)) fun _ _ hc => .calm hy hc
    exact Work.wp_bind hrelease fun _ _ hr => Work.wp_pure hr
  | destroy g =>
    refine Work.wp_bind Work.destroy_calm fun _ r hr => Work.wp_pure ?_
    obtain ⟨⟨y, hy⟩, hc⟩ := hr
    exact .calm hy hc
  | setSettings x => exact Work.wp_pure .rests
  | setPointsTo p => exact Work.wp_pure .rests
  | setScopes p => exact Work.wp_pure .rests

theorem Turns.draws {e : Setup} {r t : Registry} (h : Turns e r t) : r.Draws e t := by
  cases h with
  | rests => exact (Course.refl e ∅ r).draws
  | calm _ hc => exact hc.course.draws
  | builds hc =>
    -- filling the pool touches no graph
    have hgraph : ∀ g, (r.withGlobals e.program.globals).graph? g = r.graph? g := by
      intro g
      rw [graph?, graphs_withGlobals, graph?]
    obtain ⟨hages, hkept, hdrawn⟩ := hc.draws
    exact ⟨(ages_withGlobals r _).trans hages, fun g y z hy => hkept g y z ((hgraph g).trans hy),
      fun g z hn => hdrawn g z ((hgraph g).trans hn)⟩

/-- **Steps.** Whatever a step does, what was there keeps its layout and what is new is drawn. -/
theorem draws_of_step (h : (s.step a).2 = .ok (o, t)) : s.registry.Draws s.setup t.registry :=
  (turns h).draws

/-- **Runs.** A run is made of ticks. -/
theorem Run.ages (h : Run s log t) : s.registry.Ages t.registry := by
  induction h with
  | nil => exact .refl
  | cons _ hstep ih => exact ih.trans (draws_of_step hstep).ages

/-- A graph that is live before and after a run keeps its layout on the way. -/
theorem Run.kept {g : GraphId} {y z : Graph} (h : Run s log t) (hy : s.registry.graph? g = some y)
    (hz : t.registry.graph? g = some z) : z.layout = y.layout := by
  induction h generalizing z with
  | nil =>
    rw [hy] at hz
    cases hz
    rfl
  | @cons _ u _ _ _ hrun hstep ih =>
    -- it was live in between, since its name is not given out again
    have hdraws := draws_of_step hstep
    have hlt : g.index < u.registry.graphs.next :=
      Nat.lt_of_lt_of_le (lt_of_graph? hy) hrun.ages.next_le.2
    obtain ⟨w, hw, _⟩ := hdraws.ages.graph hlt hz
    exact (hdraws.kept g w z hw hz).trans (ih hw)

/-! ## The pool -/

/-- **The pool** is filled by the first step that does anything, once and for all. -/
theorem Reachable.pooled (hs : Reachable m s) :
    s.registry = .empty ∨ s.registry.pool = (Registry.empty.withGlobals m.globals).pool := by
  induction hs with
  | start => exact Or.inl rfl
  | @step s t a o hs hstep ih =>
    have hm := hs.steady.1
    have hnext : ∀ r, Turns s.setup s.registry r →
        r = .empty ∨ r.pool = (Registry.empty.withGlobals m.globals).pool := by
      intro r hr
      cases hr with
      | rests => exact ih
      | calm hy hc =>
        rcases ih with hempty | hpool
        · rw [hempty] at hy
          cases hy
        · exact Or.inr (hc.pool.trans hpool)
      | builds hc =>
        rw [hm] at hc
        rcases ih with hempty | hpool
        · rw [hempty] at hc
          exact Or.inr hc.pool
        · -- a pool that is full takes nothing more
          have hfull : s.registry.withGlobals m.globals = s.registry := by
            refine withGlobals_eq_self fun v hv => ?_
            rw [hpool]
            exact contains_withGlobals hv
          rw [hfull] at hc
          exact Or.inr (hc.pool.trans hpool)
    exact hnext _ (turns hstep)

/-- Where there is a graph the pool has nothing to be added to it. -/
theorem Reachable.withGlobals_eq {g : GraphId} {y : Graph} (hs : Reachable m s)
    (hy : s.registry.graph? g = some y) :
    s.registry.withGlobals s.setup.program.globals = s.registry := by
  rw [hs.steady.1]
  rcases hs.pooled with hempty | hpool
  · rw [hempty] at hy
    cases hy
  · refine withGlobals_eq_self fun v hv => ?_
    rw [hpool]
    exact contains_withGlobals hv

end Session

/-! ## Lookups -/

namespace Registry

variable {m : Module} {r t : Registry} {g : GraphId} {f : FunctionId}

/-- Lookups tell all live graphs, one for each function that has one, and no more are counted. -/
structure Listed (r : Registry) : Prop where
  lookup : ∀ f g, r.lookup? f = some g ↔ ∃ y, r.graph? g = some y ∧ y.function = f
  graphs : r.graphCount = {g | ∃ y, r.graph? g = some y}.ncard
  functions : r.graphCount = {f | ∃ g, r.lookup? f = some g}.ncard

theorem Enrolled.graphCount_eq_ncard (hr : r.Enrolled) :
    r.graphCount = {g | ∃ y, r.graph? g = some y}.ncard := by
  have hset : {g | ∃ y, r.graph? g = some y} = {g | g ∈ (r.liveGraphs.map Prod.fst).toFinset} := by
    ext g
    simp only [Set.mem_ofPred_eq, List.mem_toFinset]
    exact mem_graphNames.symm
  rw [hset, Finset.setOfPred_mem, Set.ncard_coe_finset,
    List.toFinset_card_of_nodup r.nodup_graphNames, hr.graphCount_eq]

theorem Enrolled.listed (hr : r.Enrolled) : r.Listed := by
  refine ⟨hr, hr.graphCount_eq_ncard, ?_⟩
  rw [hr.graphCount_eq_ncard]
  -- each live graph goes with its function
  have himage : {f | ∃ g, r.lookup? f = some g} =
      (fun g => ((r.graph? g).map Graph.function).getD ⟨0⟩) '' {g | ∃ y, r.graph? g = some y} := by
    ext f
    simp only [Set.mem_ofPred_eq, Set.mem_image, hr f]
    constructor
    · rintro ⟨g, y, hy, rfl⟩
      exact ⟨g, ⟨y, hy⟩, by simp [hy]⟩
    · rintro ⟨g, ⟨y, hy⟩, rfl⟩
      exact ⟨g, y, hy, by simp [hy]⟩
  rw [himage, Set.InjOn.ncard_image]
  rintro g ⟨y, hy⟩ h ⟨z, hz⟩ he
  exact hr.distinct hy hz (by simpa [hy, hz] using he)

/-- A name means the same for as long as it means anything, and names that are handed out later are
higher. -/
structure Denotes (r t : Registry) : Prop where
  nodes : r.nextNode.index ≤ t.nextNode.index
  graphs : r.nextGraph.index ≤ t.nextGraph.index
  node : ∀ n x x', r.node? n = some x → t.node? n = some x' → x'.key = x.key ∧ x'.graph? = x.graph?
  graph : ∀ g y z, r.graph? g = some y → t.graph? g = some z → z.function = y.function
  newNode : ∀ n x', r.node? n = none → t.node? n = some x' → r.nextNode.index ≤ n.index
  newGraph : ∀ g z, r.graph? g = none → t.graph? g = some z → r.nextGraph.index ≤ g.index
  freedNode : ∀ n, n.index < r.nextNode.index → r.node? n = none → t.node? n = none
  freedGraph : ∀ g, g.index < r.nextGraph.index → r.graph? g = none → t.graph? g = none

theorem Ages.denotes (ha : r.Ages t) : r.Denotes t := by
  -- what is live later and was not before has a name that was not handed out before
  have hnode : ∀ n x', r.node? n = none → t.node? n = some x' → r.nextNode.index ≤ n.index := by
    intro n x' hn hx'
    by_contra hlt
    obtain ⟨x, hx, _⟩ := ha.node (Nat.not_le.1 hlt) hx'
    rw [hn] at hx
    cases hx
  refine ⟨ha.next_le.1, ha.next_le.2, fun n x x' hx hx' => ?_, fun g y z hy hz => ?_, hnode,
    fun g z => ha.le_of_fresh, fun n hlt hn => ?_, fun g hlt hn => ?_⟩
  · obtain ⟨w, hw, hsame⟩ := ha.node (lt_of_node? hx) hx'
    rw [hx] at hw
    cases hw
    exact ⟨hsame.key, hsame.graph?⟩
  · obtain ⟨w, hw, hf⟩ := ha.graph (lt_of_graph? hy) hz
    rw [hy] at hw
    cases hw
    exact hf
  · refine Option.eq_none_iff_forall_ne_some.2 fun x' hx' => ?_
    exact absurd (hnode n x' hn hx') (Nat.not_le.2 hlt)
  · refine Option.eq_none_iff_forall_ne_some.2 fun z hz => ?_
    exact absurd (ha.le_of_fresh hn hz) (Nat.not_le.2 hlt)

end Registry

namespace Session

variable {m : Module} {s t : Session} {log : List Entry} {f : FunctionId} {g : GraphId}

/-- A function that has a graph is answered by it, and nothing is changed. -/
theorem getOrBuild_of_lookup? (hs : Reachable m s) (hf : s.registry.lookup? f = some g) :
    (s.step (.getOrBuild f)).2 = .ok (.graph g, s) := by
  obtain ⟨y, hy, _⟩ := hs.orderly.enrolled.hosts hf
  have hw : Work.wp Fault.Never (s.work (.getOrBuild f))
      (fun o r => o = .graph g ∧ r = s.registry) s.registry := by
    have hget : Work.wp Fault.Never (Work.getOrBuild s.setup f)
        (fun k r => k = g ∧ r = s.registry) s.registry := by
      refine Work.wp_bind (Work.addGlobals_eq s.setup.program) fun _ r hr => ?_
      rw [hs.withGlobals_eq hy] at hr
      subst hr
      unfold Work.request Work.requestWithin
      refine Work.wp_registry ?_
      rw [hf]
      exact Work.wp_pure ⟨rfl, rfl⟩
    refine Work.wp_bind hget fun k r hr => ?_
    obtain ⟨rfl, rfl⟩ := hr
    exact Work.wp_pure ⟨rfl, rfl⟩
  obtain ⟨o, r, hstep, rfl, rfl⟩ := exists_step hw
  exact hstep

/-- A root whose function has a graph takes one more reference to it. -/
theorem root_of_lookup? (hs : Reachable m s) (hf : s.registry.lookup? f = some g)
    {name? : Option String}
    (hname : s.setup.program.functionNamed? (name?.getD s.setup.settings.entry) = some f) :
    (s.step (.root name?)).2 = .ok (.graph g, { s with
      registry := s.registry.reviseGraph g fun y => { y with refcount := y.refcount + 1 } }) := by
  obtain ⟨y, hy, _⟩ := hs.orderly.enrolled.hosts hf
  have hw : Work.wp Fault.Never (s.work (.root name?)) (fun o r => o = .graph g ∧
      r = s.registry.reviseGraph g fun y => { y with refcount := y.refcount + 1 }) s.registry := by
    have hroot : Work.wp Fault.Never
        (Work.constructRoot s.setup (name?.getD s.setup.settings.entry)) (fun root? r =>
          root? = .ok g ∧
            r = s.registry.reviseGraph g fun y => { y with refcount := y.refcount + 1 })
        s.registry := by
      unfold Work.constructRoot
      rw [hname]
      refine Work.wp_bind (Work.addGlobals_eq s.setup.program) fun _ r hr => ?_
      rw [hs.withGlobals_eq hy] at hr
      subst hr
      refine Work.wp_registry ?_
      rw [hf]
      exact Work.wp_updateGraph_live hy (Work.wp_pure ⟨rfl, rfl⟩)
    refine Work.wp_bind hroot fun root? r hr => ?_
    obtain ⟨rfl, rfl⟩ := hr
    exact Work.wp_pure ⟨rfl, rfl⟩
  obtain ⟨o, r, hstep, rfl, rfl⟩ := exists_step hw
  exact hstep

/-- **Handles.** At any time lookups tell all live graphs, one for each function; a function that
has one is answered by it, and a root takes one more reference and does nothing else. Along a run
names are handed out in increasing order and never again, and a name that is in use means what it
meant before. -/
theorem Run.handles (hs : Reachable m s) (ht : Run s log t) :
    s.registry.Listed ∧
      (∀ f g, s.registry.lookup? f = some g →
        (s.step (.getOrBuild f)).2 = .ok (.graph g, s) ∧
          ∀ name?, s.setup.program.functionNamed? (name?.getD s.setup.settings.entry) = some f →
            (s.step (.root name?)).2 = .ok (.graph g, { s with
              registry :=
                s.registry.reviseGraph g fun y => { y with refcount := y.refcount + 1 } })) ∧
      s.registry.Denotes t.registry :=
  ⟨hs.orderly.enrolled.listed,
    fun _ _ hf => ⟨getOrBuild_of_lookup? hs hf, fun _ => root_of_lookup? hs hf⟩, ht.ages.denotes⟩

/-- The graph of `tick` is found until it is torn down, and its name is not used again. -/
theorem handles_of_ticks : ∃ o s o' t, ((Session.start .ticks).step (.root none)).2 = .ok (o, s) ∧
    (s.step (.destroy ⟨1⟩)).2 = .ok (o', t) ∧ s.registry.Listed ∧
      (s.step (.getOrBuild ⟨1⟩)).2 = .ok (.graph ⟨1⟩, s) ∧ t.registry.lookup? ⟨1⟩ = none ∧
      s.registry.Denotes t.registry := by
  have hfound : ((Session.start .ticks).step (.root none)).2.toOption.any (fun p =>
      decide (p.2.registry.lookup? ⟨1⟩ = some ⟨1⟩) &&
        (p.2.step (.destroy ⟨1⟩)).2.toOption.any (fun q =>
          decide (q.2.registry.lookup? ⟨1⟩ = none))) = true := by decide +kernel
  obtain ⟨⟨o, s⟩, hstep, htest⟩ := exists_ok_of_any hfound
  obtain ⟨hlive, hgone⟩ := Bool.and_eq_true_iff.1 htest
  obtain ⟨⟨o', t⟩, hdestroy, htest⟩ := exists_ok_of_any hgone
  have hf : s.registry.lookup? ⟨1⟩ = some ⟨1⟩ := of_decide_eq_true hlive
  have hs : Reachable .ticks s := .step .start hstep
  have ht : Run s [⟨.destroy ⟨1⟩, o', t⟩] t := .cons .nil hdestroy
  obtain ⟨hlisted, hanswers, hdenotes⟩ := Run.handles hs ht
  exact ⟨o, s, o', t, hstep, hdestroy, hlisted, (hanswers _ _ hf).1, of_decide_eq_true htest,
    hdenotes⟩

end Session

end Sdg
