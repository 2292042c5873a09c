import Sdg.Proofs.Control.Builds
import Sdg.Proofs.Portrait.Controls
import Sdg.Proofs.Portrait.Teardown
import Sdg.Proofs.Registry.Globals

/-!
# Drawing whole graphs

A build starts with a graph that has only its entry, visits the blocks, adds the edges between
units, and comes to the last stage. Builds nest, so a request is shown to take a course by induction
on how deep it may nest: the graph that it was for is under way while others are built, and is drawn
in the end.

Main results:

* `Work.buildWith_course` — a build draws its graph;
* `Work.course_request` — so does all that a request leads to;
* `Work.getOrBuild_course`, `Work.constructRoot_course` — the steps that build.
-/

namespace Sdg

namespace Stage

variable {e : Setup} {t : Stage} {x : Function} {f : FunctionId} {a c : BlockKey} {l : Nat}

/-! ## The last stage -/

/-- The last stage, from the one in which all blocks were visited. -/
def finish (e : Setup) (f : FunctionId) (x : Function) (t : Stage) : Stage :=
  { t with
    start? := x.entryBlock?
    exit? := t.exit?.or (some .unreachable)
    leads := e.program.UnitEdge x
    governs := e.UnitControl f x }

/-- All blocks were visited. -/
structure Visited (m : Module) (x : Function) (t : Stage) : Prop extends t.Acted m where
  blocks : t.blocks = x.blocks
  values : ∀ b ∈ t.blocks, ∃ z, m.block b = .ok z ∧ t.valuesOf b = z.instructions

/-- Edges to the exit were added with the returns, so those to successors are missing. -/
theorem Visited.leads_iff (h : t.Visited e.program x) :
    t.leads a c l ∨ e.program.Flows x.blocks a c l ↔ e.program.UnitEdge x a c l := by
  constructor
  · rintro (hl | ⟨b, hb, ss, d, hss, rfl, hd, rfl⟩)
    · obtain ⟨rfl, rfl, b, v, rfl, hv, hr⟩ := (h.leads a c l).1 hl
      have hb := h.placed b v hv
      obtain ⟨z, hz, hvalues⟩ := h.values b hb
      exact .exit (h.blocks ▸ hb) ⟨z, v, hz, hvalues ▸ mem_valuesOf.2 hv, hr⟩
    · exact .flow hb hss hd
  · rintro (⟨hb, hss, hd⟩ | ⟨hb, z, v, hz, hv, hr⟩)
    · exact Or.inr ⟨_, hb, _, _, hss, rfl, hd, rfl⟩
    · obtain ⟨z', hz', hvalues⟩ := h.values _ (h.blocks ▸ hb)
      rw [hz] at hz'
      cases hz'
      exact Or.inl ((h.leads _ _ _).2 ⟨rfl, rfl, _, v, rfl, mem_valuesOf.1 (hvalues ▸ hv), hr⟩)

/-- The control edges that are added last are all there are. -/
theorem governs_iff (hnone : ∀ a c, ¬ t.governs a c)
    (hL : ∀ a c l, t.leads a c l ↔ e.program.UnitEdge x a c l) :
    t.governs a c ∨ e.settings.controlScopes = true ∧ t.Scopes e f a c ∨
      e.settings.selfLoops = true ∧ t.Turns a c ↔ e.UnitControl f x a c := by
  have hbranches : ∀ a, t.Branches a ↔ e.program.Branches x a := by
    intro a
    simp only [Branches, Module.Branches, hL]
  rw [or_iff_right (hnone a c)]
  constructor
  · rintro (⟨hs, b, d, scope, rfl, rfl, hb, hscope, hd⟩ | ⟨hs, b, rfl, rfl, hb, l, hl⟩)
    · exact .scope hs ((hbranches _).1 hb) hscope hd
    · exact .loop hs ((hbranches _).1 hb) ((hL _ _ _).1 hl)
  · rintro (⟨hs, hb, hscope, hd⟩ | ⟨hs, hb, hl⟩)
    · exact Or.inl ⟨hs, _, _, _, rfl, rfl, (hbranches _).2 hb, hscope, hd⟩
    · exact Or.inr ⟨hs, _, rfl, rfl, (hbranches _).2 hb, _, (hL _ _ _).2 hl⟩

/-- **The last stage.** With the exit and the edges between units the body is complete. -/
theorem Visited.complete (h : t.Visited e.program x) (hx : e.program.function f = .ok x)
    (hfew : ∀ b ∈ x.blocks, ∃ ss, e.program.successors b = .ok ss ∧ ss.length ≤ exitLabel) :
    (t.finish e f x).Complete e f x where
  function := hx
  blocks := h.blocks
  start := rfl
  values b hb := h.values b (h.blocks ▸ hb)
  placed b v hv := h.blocks ▸ h.placed b v hv
  calls := h.calls
  exit := by
    show t.exit?.or _ = _ ∧ _ ∨ t.exit?.or _ = _ ∧ _
    rcases h.exit with ⟨hn, hno⟩ | ⟨hs, hreturn⟩
    · rw [hn]
      exact Or.inl ⟨rfl, hno⟩
    · rw [hs]
      exact Or.inr ⟨rfl, hreturn⟩
  few := hfew
  leads _ _ _ := Iff.rfl
  governs _ _ := Iff.rfl

/-- A graph that has only its entry is at the first stage. -/
theorem shows_entered (r : Registry) (f : FunctionId) (x : Function) :
    Stage.start.Shows x f (Work.enteredGraph r f x.value) := by
  -- the index has the entry and nothing else, and there is no unit
  have hindex : ∀ key, (Work.enteredGraph r f x.value).index.get? key =
      if key = .value x.value then some (Work.registered r f).nextNode else none := by
    intro key
    rw [Work.enteredGraph, OrderedMap.get?_insert]
    rfl
  have hunit : ∀ k, (Work.enteredGraph r f x.value).unit? k = none := by
    intro k
    cases k <;> rfl
  constructor
  case function => rfl
  case blocks => rfl
  case start => rfl
  case entry => exact ⟨_, rfl, (hindex _).trans (if_pos rfl)⟩
  case index =>
    intro key
    rw [hindex]
    simp [Keys, Stage.start]
  case exit => exact Or.inl ⟨rfl, rfl, rfl⟩
  case calls => exact fun c => iff_of_false (OrderedSet.not_mem_empty c) (by simp [Stage.start])
  case listed =>
    intro v hv
    cases hv
  all_goals simp [hunit, Graph.Leads, Graph.Governs, Stage.start]

end Stage

namespace Registry

variable {e : Setup} {r s : Registry} {g : GraphId} {t : Stage} {x : Function} {f : FunctionId}
  {v : ValueId}

/-- **Completion.** A graph that was not there and has come to the last stage is drawn. -/
theorem Comes.close (h : Comes e g x f r t s) (hn : r.graph? g = none) (hc : t.Complete e f x) :
    Course e ∅ r s where
  ages := h.course.ages
  kept k _ y z hy hz := by
    refine h.course.kept k (fun hk => ?_) y z hy hz
    rw [Set.mem_singleton_iff.1 hk, hn] at hy
    cases hy
  drawn k _ z hk hz := by
    by_cases hkg : k = g
    · subst hkg
      obtain ⟨hshows, haside⟩ := h.shows.2 z hz
      obtain rfl := hshows.function
      exact ⟨haside, t, x, hshows, hc⟩
    · exact h.course.drawn k hkg z hk hz
  pool := h.course.pool

/-- A new graph with its entry is at the first stage. -/
theorem Comes.enter (hf : r.lookup? f = none) (x : Function) :
    Comes e r.nextGraph x f r .start (Work.entered r f x.value) := by
  have hages : r.Ages (Work.entered r f x.value) := by
    have hstarted : (r.pushGraph (.fresh f)).Ages (Work.registered r f) :=
      Ages.reviseGraph fun _ => rfl
    refine .head (.register hf) (hstarted.trans ?_)
    exact (Ages.giveNode _ _ _ _).trans (Ages.reviseGraph fun _ => rfl)
  have hgraph := Work.graph?_entered r f x.value
  refine ⟨.of_others hages (fun k hk => ?_) (pool_entered r f _), ?_, fun y hy => ?_⟩
  · rw [hgraph, if_neg hk]
  · exact lt_of_graph? ((hgraph _).trans (if_pos rfl))
  rw [hgraph, if_pos rfl] at hy
  cases hy
  refine ⟨Stage.shows_entered r f x, fun n hn => ?_⟩
  cases hn
  rw [nextNode_registered]
  have hnode := (node?_entered r f x.value r.nextNode).trans (if_pos rfl)
  refine ⟨lt_of_node? hnode, fun w hw => ?_⟩
  rw [hnode] at hw
  cases hw
  rfl

/-- A graph that is registered and removed again spends a name. -/
theorem Course.of_refused (hf : r.lookup? f = none) (h : (r.pushGraph (.fresh f)).Calm s)
    (hgone : s.graph? r.nextGraph = none) : Course e ∅ r s := by
  -- all other graphs were there before
  have hold : ∀ k z, s.graph? k = some z → ∃ y, r.graph? k = some y ∧ z.layout = y.layout := by
    intro k z hz
    obtain ⟨y, hy, he⟩ := h.graph k z hz
    refine ⟨y, ?_, he⟩
    rwa [graph?_pushGraph, if_neg] at hy
    rintro rfl
    rw [hgone] at hz
    cases hz
  exact (⟨.head (.register hf) h.ages, hold, h.pool⟩ : r.Calm s).course

end Registry

namespace Work

open Registry

variable {e : Setup} {r r₀ : Registry} {g : GraphId} {f : FunctionId} {t : Stage} {x : Function}
  {request : FunctionId → Work GraphId}

/-! ## Builds -/

/-- The first block of the function is noted. -/
theorem begin_comes (h : r.Shows g x f t) (start? : Option BlockId) :
    wp Fault.Any (updateGraph g fun y => { y with entryBlock? := start? })
      (fun _ s => Comes e g x f r { t with start? := start? } s) r := by
  refine wp_fault (wp_last (wp_updateGraph fun y hy => wp_pure ?_)) fun _ _ => trivial
  exact .revise h hy (fun _ => rfl) rfl fun hs => hs.begin start?

theorem calm_firstNode {r₀ : Registry} {name : String} :
    Maintains Fault.Any r₀.Calm (firstNode g name) :=
  .bind (.graph trivial) fun _ => .bind (.require fun _ => trivial) fun _ =>
    .bind (.require fun _ => trivial) fun _ => .pure _

/-- What a build does once the edges to successors are there, and the exit. -/
theorem endBuild_comes {entry : NodeId} (h : r.Shows g x f t) (hnone : ∀ a c, ¬ t.governs a c)
    (hL : ∀ a c l, t.leads a c l ↔ e.program.UnitEdge x a c l) :
    wp Fault.Any (endBuild e g entry x) (fun isBuilt s => isBuilt = true ∧
      Comes e g x f r { t with governs := e.UnitControl f x } s) r := by
  refine wp_bind (addControls_comes h) fun _ s hs => ?_
  have hs := hs.congr_governs fun a c => Stage.governs_iff hnone hL
  -- the last node edge and the phase are no part of the layout
  have hrest : ∀ r₀ : Registry, Maintains Fault.Any r₀.Calm (do
      addControl entry (← firstNode g x.name)
      updateGraph g fun y => { y with phase := .built }
      report (.built g x.name (← graph g).index.size)) := fun r₀ =>
    .bind calm_firstNode fun _ => .bind calm_addControl fun _ =>
      .bind (calm_updateGraph fun _ => rfl) fun _ => .bind (.graph trivial) fun _ => .report _
  have hdone : ∀ u, Comes e g x f s { t with governs := e.UnitControl f x } u →
      wp Fault.Any (pure true) (fun isBuilt w => isBuilt = true ∧
        Comes e g x f r { t with governs := e.UnitControl f x } w) u := fun u hu =>
    wp_pure ⟨rfl, hs.trans hu⟩
  have hend := wp_bind (k := fun _ => pure true) (calm_comes (e := e) hrest hs.shows)
    fun _ u hu => hdone u hu
  simpa only [bind_assoc] using hend

/-- **Builds.** A build draws its graph, and its nested builds draw theirs. -/
theorem buildWith_course (hreq : ∀ r₀ f, Maintains Fault.Any (Course e ∅ r₀) (request f))
    (hf : r.lookup? f = none) :
    wp Fault.Any (buildWith request e r.nextGraph) (fun isBuilt s =>
      (isBuilt = true → Course e ∅ r s) ∧ (isBuilt = false → s = r.pushGraph (.fresh f)))
      (r.pushGraph (.fresh f)) := by
  refine wp_buildWith (fun _ _ _ => ⟨nofun, fun _ => rfl⟩) (fun x hx _ => ?_) fun _ _ => trivial
  unfold fillBody
  have h₀ := Comes.enter (e := e) hf x
  refine wp_bind (calm_comes (e := e) (fun _ => calm_addDeclaredFormals) h₀.shows) fun _ s₁ h₁ => ?_
  refine wp_bind (visitBlocks_comes hreq h₁.shows) fun _ s₂ hpost => ?_
  obtain ⟨t, h₂, hacted, hblocks, hvalues⟩ := hpost
  -- the visit has acted out all blocks, and nothing but them
  have ht : t.Visited e.program x := ⟨hacted, hblocks, hvalues⟩
  have h₂ := h₀.trans (h₁.trans h₂)
  refine wp_bind (begin_comes (e := e) h₂.shows x.entryBlock?) fun _ s₃ h₃ => ?_
  refine wp_bind (addAllSuccessors_comes (e := e) h₃.shows) fun _ s₄ hpost => ?_
  obtain ⟨hfew, h₄⟩ := hpost
  have h₄ := (h₂.trans (h₃.trans h₄)).congr_leads fun a c l => ht.leads_iff
  -- with the exit nothing is missing but control edges
  have hend : ∀ s t', Comes e r.nextGraph x f r t' s → { t' with governs := e.UnitControl f x } =
      t.finish e f x → (∀ a c, ¬ t'.governs a c) →
      (∀ a c l, t'.leads a c l ↔ e.program.UnitEdge x a c l) →
      wp Fault.Any (endBuild e r.nextGraph (registered r f).nextNode x) (fun isBuilt s =>
        (isBuilt = true → Course e ∅ r s) ∧ (isBuilt = false → s = r.pushGraph (.fresh f))) s := by
    intro s t' hs hfinish hnone hL
    refine wp_mono (endBuild_comes hs.shows hnone hL) fun isBuilt u hpost => ?_
    obtain ⟨rfl, hu⟩ := hpost
    refine ⟨fun _ => ?_, nofun⟩
    rw [hfinish] at hu
    exact (hs.trans hu).close (graph?_nextGraph r) (ht.complete hx hfew)
  refine wp_graph (fun y hy => ?_) fun _ => trivial
  obtain ⟨hshows, _⟩ := h₄.shows.2 y hy
  have hisNone : y.exitNode?.isNone = t.exit?.isNone := hshows.exitNode?_isNone
  split
  · rename_i hnone
    have hexit : t.exit? = none := Option.isNone_iff_eq_none.1 (hisNone ▸ hnone)
    refine wp_bind (addExit_comes (e := e) h₄.shows hexit) fun _ s₅ h₅ => ?_
    refine hend s₅ _ (h₄.trans h₅) ?_ ht.governs fun _ _ _ => Iff.rfl
    rw [Stage.finish, hexit, Option.none_or]
  · rename_i hsome
    refine hend s₄ _ h₄ ?_ ht.governs fun _ _ _ => Iff.rfl
    have hne : t.exit? ≠ none := fun hn => hsome (by rw [hisNone, hn, Option.isNone_none])
    obtain ⟨kind, hkind⟩ := Option.ne_none_iff_exists'.1 hne
    rw [Stage.finish, hkind, Option.some_or, ← hkind]

/-! ## Requests -/

/-- A request of a function whose graph may have to be built. -/
theorem course_requestRound {nested : FunctionId → Work GraphId}
    (hreq : ∀ r₀ f, Maintains Fault.Any (Course e ∅ r₀) (nested f)) :
    Maintains Fault.Any (Course e ∅ r₀) (requestRound nested e f) := by
  intro r hr
  unfold requestRound
  refine wp_registry ?_
  cases hf : r.lookup? f with
  | some g => exact wp_pure hr
  | none =>
    refine wp_newGraph hf (wp_bind (buildWith_course hreq hf) fun isBuilt s hs => ?_)
    cases isBuilt with
    | false => exact wp_ask (fun _ _ => wp_throw_bind trivial) fun _ _ => trivial
    | true =>
      exact Maintains.bind (course_of_calm fun _ => calm_unref) (fun _ => .pure _) s
        (hr.trans (hs.1 rfl))

theorem course_requestWithin (e : Setup) (depth : Nat) : ∀ r₀ f,
    Maintains Fault.Any (Course e ∅ r₀) (requestWithin e depth f) := by
  induction depth with
  | zero => exact fun _ _ => .throw trivial
  | succ depth ih => exact fun _ _ => course_requestRound ih

/-- **Requests.** A request takes a course, however deep it nests. -/
theorem course_request : Maintains Fault.Any (Course e ∅ r₀) (Work.request e f) :=
  course_requestWithin e _ r₀ f

/-! ## Steps -/

theorem getOrBuild_course : wp Fault.Any (getOrBuild e f)
    (fun _ s => Course e ∅ (r.withGlobals e.program.globals) s) r := by
  refine wp_bind (addGlobals_eq e.program) fun _ s hs => ?_
  subst hs
  exact course_request _ (.refl e ∅ _)

/-- **Roots.** Where a root is refused nothing but a name is spent, and where its function has no
name nothing at all. -/
theorem constructRoot_course {name : String} : wp Fault.Any (constructRoot e name) (fun root? s =>
    (∀ g, root? = .ok g → Course e ∅ (r.withGlobals e.program.globals) s) ∧
      (s = r ∨ Course e ∅ (r.withGlobals e.program.globals) s)) r := by
  unfold constructRoot
  split
  · exact wp_report (wp_pure ⟨nofun, Or.inl rfl⟩)
  rename_i f _
  refine wp_bind (addGlobals_eq e.program) fun _ s hs => ?_
  subst hs
  refine wp_registry ?_
  cases hf : (r.withGlobals e.program.globals).lookup? f with
  | some g =>
    refine wp_bind (calm_retain _ (.refl _)) fun _ s hs => wp_pure ?_
    exact ⟨fun _ _ => hs.course, Or.inr hs.course⟩
  | none =>
    refine wp_report (wp_newGraph hf (wp_bind (buildWith_course (fun _ _ => course_request) hf) ?_))
    intro isBuilt s hs
    cases isBuilt with
    | true =>
      exact wp_registry (wp_report (wp_pure ⟨fun _ _ => hs.1 rfl, Or.inr (hs.1 rfl)⟩))
    | false =>
      -- the graph of a declaration is registered and removed again
      have hs := hs.2 rfl
      subst hs
      have hg : ((r.withGlobals e.program.globals).pushGraph (.fresh f)).graph?
          (r.withGlobals e.program.globals).nextGraph = some (.fresh f) := by simp
      refine wp_bind (wp_and (calm_destroy _ (.refl _)) (destroy_gone hg nofun)) fun _ s hs => ?_
      exact wp_pure ⟨nofun, Or.inr (.of_refused hf hs.1 hs.2)⟩

end Work

end Sdg
