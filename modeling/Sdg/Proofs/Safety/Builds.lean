import Sdg.Proofs.Building.Roots
import Sdg.Proofs.Safety.Controls

/-!
# Builds without faults

A graph is registered before its body is visited, and gets its entry before anything can ask for it.
From then on the registry is fit, and when the build comes to its end the body of the graph is
whole. Requests nest builds, and each of them spares the bodies of the graphs that were there.

Main results:

* `buildWith_advances` — a build makes its graph whole, or the setup is to blame;
* `request_advances` — so do all builds that a request leads to.
-/

namespace Sdg

open Registry

/-- A graph that is new and whole in the end may be counted among the others. -/
theorem Advances.complete {m : Module} {r s : Registry} {g : GraphId} (h : Advances m r s {g})
    (hn : r.graph? g = none) (hw : ∀ y, s.graph? g = some y → Whole m s g y) :
    Advances m r s where
  grows := h.grows
  spares k _ y hy := by
    refine h.spares k (fun hk => ?_) y hy
    rw [Set.mem_singleton_iff.1 hk, hn] at hy
    cases hy
  whole k _ y hk hy := by
    by_cases hkg : k = g
    · subst hkg
      exact hw y hy
    · exact h.whole k hkg y hk hy

/-- The first block of a function that was visited has a first node. -/
theorem Graph.Visited.exists_first {m : Module} {r : Registry} {g : GraphId} {x : Function}
    {vs : List ValueId} {y : Graph} (hd : Draft m r g y)
    (hv : y.Visited x x.blocks vs x.entryBlock?) (hdef : x.isDefined = true) :
    ∃ n, y.entryUnit?.bind (·.first?) = some n := by
  have hne : x.blocks ≠ [] := by simpa [Function.isDefined] using hdef
  obtain ⟨b, hb⟩ := Option.ne_none_iff_exists'.1 (fun hn => hne (List.head?_eq_none_iff.1 hn))
  obtain ⟨u, hu⟩ := (hv.units b).2 (List.mem_of_head? hb)
  obtain ⟨n, hn⟩ := Option.ne_none_iff_exists'.1
    (fun hn => hd.filled _ u hu (List.head?_eq_none_iff.1 hn))
  have hentry : y.entryUnit? = some u :=
    Option.bind_eq_some_iff.2 ⟨b, hv.start.trans hb, hu⟩
  exact ⟨n, by rw [hentry]; exact hn⟩

namespace Work

variable {e : Setup} {r s : Registry} {n : NodeId} {g : GraphId} {f : FunctionId} {k : Nat}
  {x : Function} {vs : List ValueId} {y : Graph} {request : FunctionId → Work GraphId}

/-! ## The beginning -/

/-- What a function declares can be added to a graph with an entry and no variadic parameter. -/
theorem addDeclaredFormals_safe (hr : r.Fit e.program) (hy : r.graph? g = some y)
    (hx : e.program.function y.function = .ok x) (hv : r.variadic? g = none) :
    Safe e (addDeclaredFormals g f x) r := by
  unfold Safe addDeclaredFormals
  refine wp_bind (wp_forIn (fun _ _ s => Spreads e r s ∧ s.variadic? g = none) ⟨.refl, hv⟩ ?_) ?_
  · intro done v rest _ s hl hpost
    obtain ⟨hs, hnone⟩ := hpost
    obtain ⟨y', hy', hgrows⟩ := hs.grows.graph g y hy
    have hreason : ∀ z, s.graph? g = some z → Reason e s g z (.own v) := by
      intro z hz
      rw [hy'] at hz
      cases hz
      exact .declared (hgrows.function ▸ hx) (mem_of_split hl)
    refine wp_bind ((addFormal_safe (hr.spreads hs) hy').and (addFormal_spec hreason)) ?_
    intro _ t ht
    exact wp_pure ⟨_, rfl, hs.trans ht.spreads, ht.variadic.trans hnone⟩
  · intro _ s hpost
    obtain ⟨hs, hnone⟩ := hpost
    split
    · have hso := hr.spreads hs
      obtain ⟨y', hy', _⟩ := hs.grows.graph g y hy
      obtain ⟨n, z, hn, hz⟩ := hso.exists_entry hy'
      unfold newFormalPair
      rw [bind_assoc]
      refine wp_entry_live hy' hn (wp_addPair_live hz ?_)
      -- both nodes of the pair are live
      have hlive : ∀ i, i = s.nextPair.input ∨ i = s.nextPair.output →
          ∃ z, (((s.pushPair g (.variadic f)).control n s.nextPair.input).control n
            s.nextPair.output).node? i = some z := by
        intro i hi
        rw [node?_control, node?_control, node?_pushPair, if_pos hi]
        exact ⟨_, rfl⟩
      obtain ⟨zi, hzi⟩ := hlive _ (Or.inl rfl)
      obtain ⟨zo, hzo⟩ := hlive _ (Or.inr rfl)
      have hvacant : y'.formals.variadic? = none := by
        simpa [Registry.variadic?, formals?, hy'] using hnone
      refine wp_addData_live hzi hzo (wp_last (wp_setVariadic_live (y := y') ?_ hvacant
        (wp_pure trivial)))
      simpa using hy'
    · exact wp_pure trivial

/-- The registry in which the build of a new graph for the function begins. -/
def registered (r : Registry) (f : FunctionId) : Registry :=
  (r.pushGraph (.fresh f)).reviseGraph r.nextGraph fun y => { y with phase := .building }

/-- The registry once the new graph has its entry, which stands for the value `v`. -/
def entered (r : Registry) (f : FunctionId) (v : ValueId) : Registry :=
  ((registered r f).giveNode r.nextGraph (.value v) none).reviseGraph r.nextGraph fun y =>
    { y with entryNode? := some (registered r f).nextNode }

/-- The new graph by then. -/
def enteredGraph (r : Registry) (f : FunctionId) (v : ValueId) : Graph :=
  { Graph.fresh f with
    phase := .building
    entryNode? := some (registered r f).nextNode
    index := OrderedMap.empty.insert (.value v) (registered r f).nextNode }

theorem graph?_registered (r : Registry) (f : FunctionId) (h : GraphId) :
    (registered r f).graph? h = if h = r.nextGraph then
      some { Graph.fresh f with phase := .building } else r.graph? h := by
  rw [registered, graph?_reviseGraph, graph?_pushGraph]
  split <;> rfl

theorem graph?_entered (r : Registry) (f : FunctionId) (v : ValueId) (h : GraphId) :
    (entered r f v).graph? h =
      if h = r.nextGraph then some (enteredGraph r f v) else r.graph? h := by
  rw [entered, graph?_reviseGraph, graph?_giveNode, graph?_registered]
  split <;> rfl

theorem registered_changes (e : Setup) (hf : r.lookup? f = none) :
    Changes e r (registered r f) :=
  .head (.quiet (.graph hf)) (.single (.quiet (.phase nofun)))

/-- **The beginning.** With its entry the body of the new graph is under way. -/
theorem entered_underway (hr : r.Orderly e.program) (hf : r.lookup? f = none)
    (hx : e.program.function f = .ok x) :
    Evolves e (registered r f) (entered r f x.value) ∧
      Advances e.program r (entered r f x.value) {r.nextGraph} ∧
        (entered r f x.value).Underway e.program r.nextGraph x [] [] := by
  have hr₁ := hr.changes (registered_changes e hf)
  have hg := (graph?_registered r f r.nextGraph).trans (if_pos rfl)
  have hnode : Evolves e (registered r f) ((registered r f).giveNode r.nextGraph (.value x.value)
      none) := .node hr₁ hg rfl
  have hentry : Evolves e _ (entered r f x.value) :=
    .dress (hnode.orderly hr₁) r.nextGraph (fun _ => ⟨rfl, rfl, rfl, rfl, rfl, rfl, fun _ h => h⟩)
      fun _ hz hshaped => hshaped.enter (holds_of_giveNode hg hz)
  have hevolves := hnode.trans hentry
  have hunit : ∀ k, (enteredGraph r f x.value).unit? k = none := by
    intro k
    cases k <;> rfl
  refine ⟨hevolves, ⟨(registered_changes e hf).grows.trans hevolves.grows, fun h hh y hy => ?_,
    fun h hh y hn hy => ?_⟩, _, (graph?_entered r f x.value _).trans (if_pos rfl),
    .start ⟨⟨_, rfl⟩, x, hx⟩ rfl hunit, ?_⟩
  · exact ⟨y, by rw [graph?_entered, if_neg (show h ≠ r.nextGraph from hh), hy], .refl y⟩
  · rw [graph?_entered, if_neg (show h ≠ r.nextGraph from hh), hn] at hy
    cases hy
  · refine ⟨fun b => by simp [hunit], fun key n hn => ?_, rfl⟩
    -- nothing is indexed but the entry
    rw [enteredGraph, OrderedMap.get?_insert] at hn
    split at hn
    · exact Or.inl ‹_›
    · cases hn

/-- What a build does with a graph that has its entry. -/
def fillBody (request : FunctionId → Work GraphId) (e : Setup) (g : GraphId) (f : FunctionId)
    (entry : NodeId) (x : Function) : Work Bool := do
  addDeclaredFormals g f x
  for b in x.blocks do
    visitBlock request e g b
  updateGraph g fun y => { y with entryBlock? := x.entryBlock? }
  for b in x.blocks do
    addSuccessors e.program g b
  if (← graph g).exitNode?.isNone then
    let _ ← addExit g .unreachable
  endBuild e g entry x

/-- The build of a new graph gives it the entry first, unless its function has no body. -/
theorem wp_buildWith {bad : Fault → Prop} {Q : Bool → Registry → Prop}
    (hundef : ∀ x, e.program.function f = .ok x → x.isDefined = false →
      Q false (r.pushGraph (.fresh f)))
    (h : ∀ x, e.program.function f = .ok x → x.isDefined = true →
      wp bad (fillBody request e r.nextGraph f (registered r f).nextNode x) Q (entered r f x.value))
    (hbad : ∀ err, e.program.function f = .error err → bad (.missing err)) :
    wp bad (buildWith request e r.nextGraph) Q (r.pushGraph (.fresh f)) := by
  have hg : (r.pushGraph (.fresh f)).graph? r.nextGraph = some (.fresh f) := by simp
  have hg₁ := (graph?_registered r f r.nextGraph).trans (if_pos rfl)
  unfold buildWith
  refine wp_graph_live hg (wp_ask (fun x hx => ?_) hbad)
  split
  · rename_i hundefined
    exact wp_pure (hundef x hx (by simpa using hundefined))
  · rename_i hdefined
    refine wp_report (wp_updateGraph_live hg ?_)
    -- nothing is indexed as yet
    refine wp_addNode_live hg₁ (fun _ => ?_) fun hne => absurd rfl hne
    exact wp_updateGraph_live (graph?_giveNode_self hg₁) (h x hx (by simpa using hdefined))

/-- The declared parameters of a graph that nobody calls as yet. -/
theorem addDeclaredFormals_spares (hr : (entered r f x.value).Fit e.program)
    (hx : e.program.function f = .ok x) :
    wp e.Blames (addDeclaredFormals r.nextGraph f x)
      (fun _ s => Spares e (entered r f x.value) s) (entered r f x.value) := by
  have hg := (graph?_entered r f x.value r.nextGraph).trans (if_pos rfl)
  have huncalled : ∀ c, ¬ (entered r f x.value).Calls c r.nextGraph := by
    intro c hc
    obtain ⟨y, hy, hmem⟩ := (hr.orderly.mirrored.calls c _).1 hc
    rw [hg] at hy
    cases hy
    exact OrderedSet.not_mem_empty c hmem
  have hsafe : Safe e (addDeclaredFormals r.nextGraph f x) (entered r f x.value) :=
    addDeclaredFormals_safe hr hg hx (by simp [Registry.variadic?, formals?, hg]; rfl)
  refine wp_mono (hsafe.and (addDeclaredFormals_spec hr.orderly hg rfl hx rfl huncalled)) ?_
  intro _ s hpost
  obtain ⟨hs, _⟩ := hpost
  exact ⟨.of_settles hr.orderly hs, .of_spreads hs.spreads⟩

/-! ## The blocks -/

/-- All blocks of a function can be visited. -/
theorem visitBlocks_visits (hreq : Requests e k request) (hdel : Delivers e k request)
    (h : Visiting e g f x [] [] r) (hk : r.pending e.program < k) :
    wp e.Blames (forIn x.blocks PUnit.unit fun b _ => do
      visitBlock request e g b
      pure (.yield PUnit.unit)) (fun _ s => ∃ vs, Visits e r s g x x.blocks vs ∧
        ∀ v ∈ vs, e.program.InBody f v) r := by
  -- in a sane module an instruction stands in one block only
  refine wp_mono (wp_forIn (fun done _ s => ∃ vs, Visits e r s g x done vs ∧
    (∀ v ∈ vs, e.program.InBody f v) ∧ (e.Sane → ∀ v ∈ vs, ∃ i,
      e.program.instruction? v = .ok (some i) ∧ i.block ∈ done))
    ⟨[], .refl h.underway, nofun, nofun⟩ ?_) ?_
  · intro done b rest _ s hl hpost
    obtain ⟨vs, hs, hbody, hplaced⟩ := hpost
    have hb : b ∈ x.blocks := mem_of_split hl
    refine wp_bind (visitBlock_visits hreq hdel (h.after hs) (hs.pending hk) hb
      fun hsane z hz v hv hin => ?_) ?_
    · obtain ⟨i, hi, hdone⟩ := hplaced hsane v hin
      obtain ⟨i', hi', hib⟩ := hsane.program.placed b z v hz hv
      rw [hi] at hi'
      cases hi'
      exact not_mem_of_split (hsane.program.distinctBlocks f x h.function) hl (hib ▸ hdone)
    intro _ t hpost
    obtain ⟨z, hz, ht⟩ := hpost
    refine wp_pure ⟨_, rfl, vs ++ z.instructions, hs.trans ht, fun v hv => ?_, fun hsane v hv => ?_⟩
    · rcases List.mem_append.1 hv with hv | hv
      · exact hbody v hv
      · exact ⟨x, b, z, h.function, hb, hz, hv⟩
    · rcases List.mem_append.1 hv with hv | hv
      · obtain ⟨i, hi, hdone⟩ := hplaced hsane v hv
        exact ⟨i, hi, List.mem_append_left _ hdone⟩
      · obtain ⟨i, hi, hib⟩ := hsane.program.placed b z v hz hv
        exact ⟨i, hi, List.mem_append_right _ (List.mem_singleton.2 hib)⟩
  · intro _ s hpost
    obtain ⟨vs, hs, hbody, _⟩ := hpost
    exact ⟨vs, hs, hbody⟩

/-- The edges from all blocks can be added. -/
theorem addAllSuccessors_visits {start? : Option BlockId}
    (h : Visiting e g f x x.blocks vs r none start?) :
    wp e.Blames (forIn x.blocks PUnit.unit fun b _ => do
      addSuccessors e.program g b
      pure (.yield PUnit.unit)) (fun _ s => Visits e r s g x x.blocks vs none start?) r := by
  refine wp_forIn (fun _ _ s => Visits e r s g x x.blocks vs none start?) (.refl h.underway) ?_
  intro done b rest _ s hl hs
  refine wp_bind (addSuccessors_visits (h.after hs) (mem_of_split hl)) ?_
  intro _ t ht
  exact wp_pure ⟨_, rfl, hs.trans ht⟩

/-! ## The end -/

/-- The first node of a body that is there, in a graph that has its exit. -/
theorem wp_firstNode_live {β : Type} {bad : Fault → Prop} {Q : β → Registry → Prop} {name : String}
    {u : BlockUnit} {k : NodeId → Work β} (hy : r.graph? g = some y)
    (hn : y.entryUnit?.bind (·.first?) = some n) (hu : y.exitUnit? = some u)
    (h : wp bad (k n) Q r) : wp bad (firstNode g name >>= k) Q r := by
  refine wp_firstNode (fun z i hz hi => ?_) (fun hz => ?_) (fun z hz hi => ?_) fun z hz hw => ?_
  all_goals
    rw [hy] at hz
    cases hz
  · rw [hn] at hi
    cases hi
    exact h
  · rw [hn] at hi
    cases hi
  · rw [hu] at hw
    cases hw

/-- **The end.** What a build does after it has made the exit, its control edges and the last
entries, leaves the body whole that was under way since the registry `r`. -/
theorem endBuild_whole {entry : NodeId} {z : Node} (h : Visiting e g f x [] [] r)
    (hs : Visits e r s g x x.blocks vs none x.entryBlock?) (hdef : x.isDefined = true)
    (hy : s.graph? g = some y) (hexit : ∃ i, y.exitNode? = some i)
    (hvs : ∀ v ∈ vs, e.program.InBody f v) (hz : r.node? entry = some z) :
    wp e.Blames (endBuild e g entry x) (fun isBuilt t => isBuilt = true ∧
      Advances e.program r t {g} ∧ ∀ y, t.graph? g = some y → Whole e.program t g y) s := by
  have hvisiting := h.after hs
  refine wp_bind (addControls_spares hvisiting hvs) ?_
  intro _ t ht
  have ht' := hvisiting.aside ht
  obtain ⟨y', hy', hsame⟩ := ht.advances.exists_graph hy
  obtain ⟨y'', hy'', hd, hv⟩ := ht'.underway
  rw [hy'] at hy''
  cases hy''
  obtain ⟨first, hfirst⟩ := hv.exists_first hd hdef
  obtain ⟨i, hi⟩ := hexit
  have hexit' : y'.exitNode? = some i := hsame.exitNode?.trans hi
  obtain ⟨w, hw⟩ : ∃ w, y'.exitUnit? = some w := hd.exit i hexit'
  refine wp_firstNode_live hy' hfirst hw ?_
  obtain ⟨u, hunit, hfirst⟩ := Option.bind_eq_some_iff.1 hfirst
  obtain ⟨b, _, hub⟩ := Option.bind_eq_some_iff.1 hunit
  obtain ⟨w, hw, _⟩ := hd.placed (.block b) u hub first (List.mem_of_mem_head? hfirst)
  obtain ⟨z', hz', _⟩ := (hs.evolves.trans ht.evolves).grows.node _ z hz
  refine wp_addControl_live hz' hw ?_
  have hcontrol : Spares e t (t.control entry first) := .control ht'.fit.orderly hz' hw
  have hy₁ : (t.control entry first).graph? g = some y' := by simpa using hy'
  -- the phase is no part of the body
  have hbody : ∀ y : Graph, y.SameBody { y with phase := .built } :=
    fun _ => .of_units rfl rfl rfl rfl rfl rfl rfl
  have hgrows : (t.control entry first).Grows ((t.control entry first).reviseGraph g fun y =>
      { y with phase := .built }) := .reviseGraph fun _ _ => .of_eq rfl rfl rfl rfl fun _ h => h
  have hy₂ : ((t.control entry first).reviseGraph g fun y => { y with phase := .built }).graph? g =
      some { y' with phase := .built } := by
    simp [hy']
  refine wp_updateGraph_live hy₁ (wp_graph_live hy₂ (wp_report (wp_pure ⟨rfl, ?_, ?_⟩)))
  · have hphase := (ht.trans hcontrol).advances.trans (.reviseGraph hgrows fun _ y _ => hbody y)
    exact hs.advances.trans (hphase.but {g})
  · intro y₂ hy₂'
    rw [hy₂] at hy₂'
    cases hy₂'
    have hwhole : Whole e.program t g y' := ⟨hd, ⟨i, hexit'⟩, u, hunit⟩
    exact (hwhole.frame hcontrol.evolves.grows (.refl y')).frame hgrows (hbody y')

/-- **Builds.** A build makes its graph whole and spares the bodies of the others. -/
theorem buildWith_advances (hreq : Requests e k request) (hdel : Delivers e k request)
    (hr : r.Fit e.program) (hf : r.lookup? f = none)
    (hk : f.index < e.program.functions.size → (r.pushGraph (.fresh f)).pending e.program < k)
    (hfun : e.Sane → ∃ x, e.program.function f = .ok x) :
    wp e.Blames (buildWith request e r.nextGraph) (fun isBuilt s =>
      (isBuilt = true → Advances e.program r s) ∧ (isBuilt = false → ¬ e.program.Defines f))
      (r.pushGraph (.fresh f)) := by
  refine wp_buildWith (fun x hx hundef => ⟨nofun, fun _ hdef => ?bodiless⟩)
    (fun x hx hdef => ?body) fun err herr => ⟨nofun, fun hsane => ?missing⟩
  case bodiless =>
    obtain ⟨x', hx', hdef⟩ := hdef
    rw [hx] at hx'
    cases hx'
    rw [hundef] at hdef
    cases hdef
  case missing =>
    obtain ⟨x, hx⟩ := hfun hsane
    rw [hx] at herr
    cases herr
  obtain ⟨hev, hadv, hu⟩ := entered_underway hr.orderly hf hx
  have hchanges := (registered_changes e hf).trans hev.changes
  have hr₁ := hr.advance hchanges hadv hu.ready
  have hg₁ := (graph?_entered r f x.value r.nextGraph).trans (if_pos rfl)
  obtain ⟨entry, z, hentry, hz⟩ := hr₁.exists_entry hg₁
  cases hentry
  have h₀ : Visiting e r.nextGraph f x [] [] (entered r f x.value) := ⟨hr₁, ⟨_, hg₁, rfl⟩, hx, hu⟩
  have hphase : (r.pushGraph (.fresh f)).Grows (registered r f) :=
    .reviseGraph fun _ _ => .of_eq rfl rfl rfl rfl fun _ h => h
  have hk₀ : (entered r f x.value).pending e.program < k :=
    Nat.lt_of_le_of_lt (pending_mono (hphase.trans hev.grows))
      (hk (Module.index_lt_of_function hx))
  -- from here on each piece takes the visit further: blocks, edges, exit
  unfold fillBody
  refine wp_bind (addDeclaredFormals_spares hr₁ hx) fun _ s₁ h₁ => ?_
  have hv₁ : Visits e (entered r f x.value) s₁ r.nextGraph x [] [] := .aside hu h₁
  refine wp_bind (visitBlocks_visits hreq hdel (h₀.after hv₁) (hv₁.pending hk₀)) ?_
  intro _ s₂ hpost
  obtain ⟨vs, hv₂, hvs⟩ := hpost
  obtain ⟨y₂, hy₂, _⟩ := id hv₂.underway
  have h₂ := hv₁.trans hv₂
  refine wp_updateGraph_live hy₂ ?_
  have h₃ := h₂.trans (.begin (h₂.fit hr₁) h₂.underway x.entryBlock?)
  refine wp_bind (addAllSuccessors_visits (h₀.after h₃)) ?_
  intro _ s₄ hv₄
  have h₄ := h₃.trans hv₄
  obtain ⟨y₄, hy₄, _⟩ := id h₄.underway
  refine wp_mono (P := fun isBuilt t => isBuilt = true ∧
    Advances e.program (entered r f x.value) t {r.nextGraph} ∧
      ∀ y, t.graph? r.nextGraph = some y → Whole e.program t r.nextGraph y) ?_ ?_
  · refine wp_graph_live hy₄ ?_
    -- a function that never returns has no exit yet
    split
    · rename_i hnone
      refine wp_bind (addExit_visits (h₀.after h₄) hy₄ (Option.isNone_iff_eq_none.1 hnone)) ?_
      intro exit s₅ hpost
      obtain ⟨hv₅, y₅, hy₅, hexit⟩ := hpost
      exact endBuild_whole h₀ (h₄.trans hv₅) hdef hy₅ ⟨exit, hexit⟩ hvs hz
    · rename_i hexit
      exact endBuild_whole h₀ h₄ hdef hy₄
        (Option.ne_none_iff_exists'.1 fun hn => hexit (Option.isNone_iff_eq_none.2 hn)) hvs hz
  · intro isBuilt t hpost
    -- the body of the new graph is open until the end, and whole then
    obtain ⟨rfl, hadv', hwhole⟩ := hpost
    exact ⟨fun _ => (hadv.trans hadv').complete (graph?_nextGraph r) hwhole, nofun⟩

/-! ## Requests -/

/-- A request of a function with a body builds its graph, if there is none. -/
theorem requestRound_advances {nested : FunctionId → Work GraphId} (hreq : Requests e k nested)
    (hdel : Delivers e k nested) (hr : r.Fit e.program) (hk : r.pending e.program ≤ k)
    (hdef : e.Sane → e.program.Defines f) :
    wp e.Blames (requestRound nested e f) (fun _ s => Advances e.program r s) r := by
  unfold requestRound
  refine wp_registry ?_
  cases hf : r.lookup? f with
  | some g => exact wp_pure (.refl _ r)
  | none =>
    have hpush : Quiet e.program r (r.pushGraph (.fresh f)) := .graph hf
    have hg : (r.pushGraph (.fresh f)).graph? r.nextGraph = some (.fresh f) := by simp
    have hdepth : f.index < e.program.functions.size →
        (r.pushGraph (.fresh f)).pending e.program < k :=
      fun hlt => Nat.lt_of_lt_of_le (pending_pushGraph_lt hf hlt) hk
    have hfun : e.Sane → ∃ x, e.program.function f = .ok x := by
      intro hsane
      obtain ⟨x, hx, _⟩ := hdef hsane
      exact ⟨x, hx⟩
    refine wp_newGraph hf (wp_bind (wp_and (buildWith_spec hreq (hr.orderly.change (.quiet hpush)) hg
      hdepth) (buildWith_advances hreq hdel hr hf hdepth hfun)) ?_)
    intro isBuilt s hpost
    obtain ⟨⟨_, hbuilds⟩, hadv, hundef⟩ := hpost
    cases isBuilt with
    | false =>
      refine wp_ask_sane hfun fun _ _ => ?_
      exact wp_throw_bind ⟨nofun, fun hsane => hundef rfl (hdef hsane)⟩
    | true =>
      -- the reference that the build began with is not that of a caller
      obtain ⟨y, hy, _, _, hcount⟩ := (hbuilds rfl).built
      refine wp_bind (unref_spec hy (by omega)) ?_
      intro _ t ht
      subst ht
      have hgrows : s.Grows (s.reviseGraph r.nextGraph
          fun y => { y with refcount := y.refcount - 1 }) :=
        .reviseGraph fun _ _ => .of_eq rfl rfl rfl rfl fun _ h => h
      exact wp_pure ((hadv rfl).trans (.reviseGraph hgrows fun _ _ _ =>
        .of_units rfl rfl rfl rfl rfl rfl rfl))

theorem requestWithin_advances (e : Setup) : ∀ depth, Delivers e depth (requestWithin e depth)
  | 0 => fun _ _ _ hk => absurd hk (Nat.not_lt_zero _)
  | depth + 1 => fun _ _ hr hk =>
    requestRound_advances (requestWithin_spec e depth) (requestWithin_advances e depth) hr
      (Nat.le_of_lt_succ hk)

/-- **Requests.** The graph of a function with a body is there afterwards. -/
theorem request_advances (hr : r.Fit e.program) (hdef : e.Sane → e.program.Defines f) :
    wp e.Blames (Work.request e f) (fun _ s => Advances e.program r s) r := by
  have hle := r.pending_le e.program
  unfold Work.request
  exact requestWithin_advances e _ f r hr (by omega) hdef

end Work

end Sdg
