import Sdg.Build.Construction
import Sdg.Proofs.Building.Bodies

/-!
# Requests

The graph of a function is registered, built, and then held by its callers alone. A build nests in
another only after it has registered one more function, so builds nest no deeper than the module
has functions. When a build ends, its graph has every parameter that the body of its function asks
for: the declared ones since its beginning, the others since the visit of their instruction.

Main results:

* `buildWith_spec` — a finished build covers what its function asks for;
* `request_spec` — a request ends, and lets the registry evolve.
-/

namespace Sdg

namespace Work

open Registry Relation

variable {e : Setup} {r s : Registry} {c n : NodeId} {g h : GraphId} {f : FunctionId} {k : Nat}
  {v : ValueId} {request : FunctionId → Work GraphId}

/-! ## Declared parameters -/

/-- Parameters of a graph that nobody calls unsettle no link. -/
theorem settles_of_uncalled (h : Spreads e r s) (hothers : ∀ h, h ≠ g → s.graph? h = r.graph? h)
    (hg : ∀ c, ¬ r.Calls c g) (hv : s.variadic? g = r.variadic? g ∨ s.Loops g) :
    Settles e r s where
  spreads := h
  keeps k := by
    by_cases hk : k = g
    · subst hk
      exact Or.inr fun c hc => absurd ((h.calls_iff c k).1 hc) (hg c)
    · exact Or.inl (by rw [formals?, formals?, hothers k hk])
  loops k := by
    by_cases hk : k = g
    · rw [hk]
      exact hv
    · exact Or.inl (variadic?_eq (by rw [formals?, formals?, hothers k hk]))

/-- The variadic parameter of a graph that has none: what comes in also goes out. -/
theorem addVariadic_spec {id : FunctionId} {y : Graph} (hy : r.graph? g = some y)
    (hv : y.formals.variadic? = none) (hreason : Reason e r g y .variadic)
    (hg : ∀ c, ¬ r.Calls c g) :
    wp Fault.Genuine (addVariadic g id) (fun _ s => Settles e r s) r := by
  unfold addVariadic newFormalPair
  rw [bind_assoc]
  refine wp_entry fun _ en _ _ => ?_
  refine wp_addPair fun x hx => ?_
  refine wp_addData fun xi xo hi ho => ?_
  refine wp_last (wp_setVariadic fun _ _ _ => wp_pure ?_)
  -- the pair might as well have been entered first, which makes the data edge one with a reason
  rw [reviseGraph_feed, reviseGraph_control, reviseGraph_control]
  have hkey : ∀ v, Slot.variadic = .own v ∨ Slot.variadic = .global v →
      NodeKey.variadic id = .value v := by
    rintro v (hs | hs) <;> cases hs
  have hen : (r.giveFormal g (.variadic id) .variadic).node? en = some x := by
    rw [giveFormal, node?_reviseGraph]
    exact hx
  have hspreads := spreads_giveFormal (s := .variadic) hy hv hreason hkey hen
  have hnode : ∀ n, (((r.giveFormal g (.variadic id) .variadic).control en r.nextPair.input).control
      en r.nextPair.output).node? n = (((r.pushPair g (.variadic id)).control en
        r.nextPair.input).control en r.nextPair.output).node? n := by
    intro n
    rw [giveFormal, ← reviseGraph_control, ← reviseGraph_control, node?_reviseGraph]
  have hflow : (((r.giveFormal g (.variadic id) .variadic).control en r.nextPair.input).control en
      r.nextPair.output).Flow e.program r.nextPair.input r.nextPair.output := by
    refine .variadic (g := g) (y := { y with formals := y.formals.put .variadic r.nextPair }) ?_ rfl
      rfl rfl
    simp [hy]
  have hfeed := Spread.feed ((hnode _).trans hi) ((hnode _).trans ho) hflow
  refine settles_of_uncalled (hspreads.tail hfeed) (fun k hk => ?_) hg ?_
  · simp [hk]
  · right
    intro q hq
    -- the slot was vacant, so the pair in it is the new one
    have hpair : q = r.nextPair := by
      simpa [Registry.variadic?, formals?, hy, Parameters.put, eq_comm] using hq
    rw [hpair]
    exact (feeds_feed ((hnode _).trans hi)).2 (Or.inr ⟨rfl, rfl⟩)

/-- A graph that nobody calls yet gets what its function declares. -/
theorem addDeclaredFormals_spec {x : Function} {y : Graph} (hr : r.Orderly e.program)
    (hy : r.graph? g = some y) (hf : y.function = f) (hx : e.program.function f = .ok x)
    (hv : y.formals.variadic? = none) (hg : ∀ c, ¬ r.Calls c g) :
    wp Fault.Genuine (addDeclaredFormals g f x)
      (fun _ s => Settles e r s ∧ ∀ v ∈ x.params, s.HasFormal g v) r := by
  unfold addDeclaredFormals
  -- the graph stands for the same function whatever is added meanwhile
  have hfun : ∀ {s : Registry} {z : Graph}, r.Grows s → s.graph? g = some z →
      e.program.function z.function = .ok x := by
    intro s z hs hz
    obtain ⟨z', hz', hyz⟩ := hs.graph g y hy
    rw [hz] at hz'
    cases hz'
    rw [hyz.function, hf, hx]
  -- the slot for further arguments stays vacant until the loop is over
  refine wp_bind (wp_forIn (fun done _ s => Settles e r s ∧ (∀ v ∈ done, s.HasFormal g v) ∧
    ∃ z, s.graph? g = some z ∧ z.formals.variadic? = none)
    ⟨.refl e r, nofun, y, hy, hv⟩ ?_) ?_
  · intro done v rest _ s hl hpost
    obtain ⟨hs, hdone, z, hz, hzv⟩ := hpost
    have hreason : ∀ z, s.graph? g = some z → Reason e s g z (.own v) := fun z hz =>
      .declared (hfun hs.spreads.grows hz) (mem_of_split hl)
    refine wp_bind (addFormal_spec hreason) fun isNew t ht => ?_
    have hst : Settles e s t :=
      settles_of_uncalled ht.spreads ht.others
        (fun c hc => hg c ((hs.spreads.calls_iff c g).1 hc)) (Or.inl ht.variadic)
    obtain ⟨z', hz', _⟩ := ht.contains
    refine wp_pure ⟨_, rfl, hs.trans hr hst, fun w hw => ?_, z', hz', ?_⟩
    · rcases List.mem_append.1 hw with hw | hw
      · exact (hdone w hw).grows ht.spreads.grows
      · rw [List.mem_singleton.1 hw]
        exact ht.contains
    · have hsame := ht.variadic
      rw [Registry.variadic?, Registry.variadic?, formals?, formals?, hz, hz'] at hsame
      exact hsame.trans hzv
  · intro _ s hpost
    obtain ⟨hs, hdone, z, hz, hzv⟩ := hpost
    have hso := hs.spreads.orderly hr
    split
    · rename_i hvar
      have hreason : Reason e s g z .variadic := .variadic (hfun hs.spreads.grows hz) hvar
      refine wp_mono (addVariadic_spec hz hzv hreason
        fun c hc => hg c ((hs.spreads.calls_iff c g).1 hc)) fun _ t ht => ?_
      exact ⟨hs.trans hr ht, fun v hv => (hdone v hv).grows ht.spreads.grows⟩
    · exact wp_pure ⟨hs, hdone⟩

/-! ## Builds -/

/-- What the build of the fresh graph `g` does. -/
structure Builds (e : Setup) (r : Registry) (g : GraphId) (s : Registry) : Prop where
  changes : Changes e r s
  settled : ∀ c h, r.Calls c h → r.Settled e.program c h → s.Settled e.program c h
  linked : ∀ c h, s.Calls c h → r.Calls c h ∨ s.Settled e.program c h
  old : ∀ h y, h ≠ g → r.graph? h = some y → ∃ y', s.graph? h = some y' ∧ y'.phase = y.phase ∧
    y'.refcount + y.callers.size = y.refcount + y'.callers.size
  fresh : ∀ h y', h ≠ g → r.graph? h = none → s.graph? h = some y' →
    y'.phase = .built ∧ Covered e s h y' ∧ y'.refcount = y'.callers.size
  rooted : ∀ h y', r.graph? h = none → s.graph? h = some y' →
    ∃ k, (∃ i, r.Hosts i k) ∧ ReflTransGen e.Runs k y'.function
  numbers : r.Numbers s
  built : ∃ y', s.graph? g = some y' ∧ y'.phase = .built ∧ Covered e s g y' ∧
    y'.refcount = y'.callers.size + 1
  loops : ∀ h, s.variadic? h = r.variadic? h ∨ s.Loops h
  collects : r.Collects e s

/-- A build is an evolution between the two steps that change the phase of its graph. -/
theorem Builds.of_evolves {y : Graph} (hr : r.Orderly e.program) (hg : r.graph? g = some (.fresh f))
    (h : Evolves e (r.reviseGraph g fun y => { y with phase := .building }) s)
    (hy : s.graph? g = some y) (hcov : Covered e s g y) :
    Builds e r g (s.reviseGraph g fun y => { y with phase := .built }) := by
  have hfirst : Quiet e.program r (r.reviseGraph g fun y => { y with phase := .building }) :=
    .phase nofun
  have hlast : Quiet e.program s (s.reviseGraph g fun y => { y with phase := .built }) :=
    .phase nofun
  have hr₁ := hr.change (.quiet hfirst)
  have hs := h.orderly hr₁
  have hsame : s.Collects e (s.reviseGraph g fun y => { y with phase := .built }) :=
    .of_eq (gathered_reviseGraph s g _)
  refine ⟨?_, ?_, ?_, ?_, ?_, ?_, ?_, ?_, ?_, ?_⟩
  · exact .tail (.trans (.single (.quiet hfirst)) h.changes) (.quiet hlast)
  · intro c k hc hset
    have hc₁ := hc.grows hfirst.grows
    exact hlast.settled hs (hc₁.grows h.grows)
      (h.settled c k hc₁ (hfirst.settled hr hc hset))
  · intro c k hc
    have hcs := (hlast.keepsLinks.calls c k).1 hc
    rcases h.linked c k hcs with hc₁ | hset
    · exact Or.inl ((hfirst.keepsLinks.calls c k).1 hc₁)
    · exact Or.inr (hlast.settled hs hcs hset)
  · intro k z hk hz
    obtain ⟨z', hz', hrest⟩ := h.old k z (by simpa [hk] using hz)
    exact ⟨z', by simpa [hk] using hz', hrest⟩
  · intro k z' hk hn hz'
    obtain ⟨hp, hfresh, hcount⟩ := h.fresh k z' (by simpa [hk] using hn) (by simpa [hk] using hz')
    exact ⟨hp, hfresh.grows hlast.grows hsame (.refl z'), hcount⟩
  · intro k z' hn hz'
    -- the graph itself is not new
    have hk : k ≠ g := by
      intro hk
      rw [hk, hg] at hn
      cases hn
    obtain ⟨i, hi | ⟨j, hj⟩, hreach⟩ :=
      h.rooted k z' (by simpa [hk] using hn) (by simpa [hk] using hz')
    · exact hi.elim
    · have hiff := hosts_reviseGraph (r := r) (g := g) (f := fun y => { y with phase := .building })
        (k := i) (i := j) fun _ => rfl
      exact ⟨i, ⟨j, hiff.1 hj⟩, hreach⟩
  · exact (Numbers.reviseGraph r g _).trans (h.numbers.trans (Numbers.reviseGraph s g _))
  · obtain ⟨y', hy', _, hcount⟩ := h.old g { Graph.fresh f with phase := .building } (by simp [hg])
    rw [hy] at hy'
    cases hy'
    refine ⟨{ y with phase := .built }, by simp [hy], rfl,
      hcov.grows hlast.grows hsame (.of_eq rfl rfl rfl rfl fun _ h => h), ?_⟩
    -- a fresh graph is held once, and not by a caller
    have hfresh : ({ Graph.fresh f with phase := .building } : Graph).callers.size = 0 := rfl
    have hone : ({ Graph.fresh f with phase := .building } : Graph).refcount = 1 := rfl
    show y.refcount = y.callers.size + 1
    omega
  · intro k
    have h1 := variadic?_eq (formals?_reviseGraph (r := r) (g := g)
      (f := fun y => { y with phase := .building }) (fun _ => rfl) k)
    have h2 := variadic?_eq (formals?_reviseGraph (r := s) (g := g)
      (f := fun y => { y with phase := .built }) (fun _ => rfl) k)
    rw [← h1]
    exact loops_trans hlast.grows (h.loops k) (Or.inl h2)
  · have hbegun : r.Collects e (r.reviseGraph g fun y => { y with phase := .building }) :=
      .of_eq (gathered_reviseGraph r g _)
    exact hbegun.trans (h.grows.trans hlast.grows) (h.collects.trans hlast.grows hsame)

/-- The beginning of a build: the entry, and the declared parameters. -/
theorem wp_beginBuild {β : Type} {Q : β → Registry → Prop} {key : NodeKey} {x : Function}
    {rest : NodeId → Unit → Work β} (hr : r.Orderly e.program)
    (hg : r.graph? g = some { Graph.fresh f with phase := .building })
    (hx : e.program.function f = .ok x)
    (h : ∀ n s, Evolves e r s → (∀ v ∈ x.params, s.HasFormal g v) →
      wp Fault.Genuine (rest n ()) Q s) :
    wp Fault.Genuine (addNode g key >>= fun entry =>
      updateGraph g (fun y => { y with entryNode? := some entry }) >>= fun _ =>
        addDeclaredFormals g f x >>= rest entry) Q r := by
  -- the graph has no callers as yet
  have huncalled : ∀ c, ¬ r.Calls c g := by
    intro c hc
    obtain ⟨y, hy, hmem⟩ := (hr.mirrored.calls c g).1 hc
    rw [hg] at hy
    cases hy
    exact OrderedSet.not_mem_empty c hmem
  refine wp_addNode fun y hy hkey => wp_updateGraph fun _ _ => ?_
  have hnode : Evolves e r (r.giveNode g key none) := .node hr hy hkey
  have hentry : Evolves e _ ((r.giveNode g key none).reviseGraph g
      fun y => { y with entryNode? := some r.nextNode }) :=
    .dress (hnode.orderly hr) g (fun _ => ⟨rfl, rfl, rfl, rfl, rfl, rfl, fun _ h => h⟩)
      fun _ hz hshaped => hshaped.enter (holds_of_giveNode hy hz)
  have h₁ := hnode.trans hentry
  have hlinks : (r.giveNode g key none).KeepsLinks ((r.giveNode g key none).reviseGraph g
      fun y => { y with entryNode? := some r.nextNode }) := .reviseGraph fun _ => rfl
  have hg₁ : ∃ y, ((r.giveNode g key none).reviseGraph g
      fun y => { y with entryNode? := some r.nextNode }).graph? g = some y ∧ y.function = f ∧
        y.formals.variadic? = none := by
    rw [graph?_reviseGraph, if_pos rfl, graph?_giveNode, if_pos rfl, hg]
    exact ⟨_, rfl, rfl, rfl⟩
  obtain ⟨y₁, hy₁, hf₁, hv₁⟩ := hg₁
  refine wp_bind (addDeclaredFormals_spec (h₁.orderly hr) hy₁ hf₁ hx hv₁ fun c hc => ?_) ?_
  · -- the entry is linked to nothing
    have hquiet : Quiet e.program r (r.giveNode g key none) := .node hy hkey
    exact huncalled c ((hquiet.keepsLinks.calls c g).1 ((hlinks.calls c g).1 hc))
  · intro _ s hpost
    obtain ⟨hs, hparams⟩ := hpost
    exact h _ s (h₁.trans (.of_settles (h₁.orderly hr) hs)) hparams

/-- The visit of all blocks. -/
theorem visitBlocks_spec {x : Function} (hreq : Requests e k request) (hr : r.Orderly e.program)
    (hk : r.pending e.program < k) (hg : r.Hosts g f) (hx : e.program.function f = .ok x) :
    wp Fault.Genuine (forIn x.blocks PUnit.unit fun b _ => do
      visitBlock request e g b
      pure (.yield PUnit.unit)) (fun _ s => Evolves e r s ∧ ∀ b ∈ x.blocks, ∀ y,
        e.program.block b = .ok y → ∀ v ∈ y.instructions, Meets e s g v) r := by
  refine wp_forIn (fun done _ s => Evolves e r s ∧ ∀ b ∈ done, ∀ y,
    e.program.block b = .ok y → ∀ v ∈ y.instructions, Meets e s g v) ⟨.refl e r, nofun⟩ ?_
  intro done b rest _ s hl hpost
  obtain ⟨hs, hdone⟩ := hpost
  have hb : b ∈ x.blocks := mem_of_split hl
  refine wp_bind (visitBlock_spec hreq (hs.orderly hr)
    (Nat.lt_of_le_of_lt (pending_mono hs.grows) hk) (hg.grows hs.grows) hx hb) ?_
  intro _ t hpost
  obtain ⟨ht, hmeets⟩ := hpost
  refine wp_pure ⟨_, rfl, hs.trans ht, fun d hd => ?_⟩
  -- the blocks before this one are met still
  rcases List.mem_append.1 hd with hd | hd
  · exact fun y hy v hv => (hdone d hd y hy v hv).grows ht.grows ht.collects
  · rw [List.mem_singleton.1 hd]
    exact hmeets

/-- A graph with its declared parameters that meets all instructions of its function covers it. -/
theorem covered_of_meets {x : Function} {y : Graph} (hg : r.Hosts g f) (hy : r.graph? g = some y)
    (hx : e.program.function f = .ok x) (hparams : ∀ v ∈ x.params, r.HasFormal g v)
    (hblocks : ∀ b ∈ x.blocks, ∀ y, e.program.block b = .ok y → ∀ v ∈ y.instructions,
      Meets e r g v) : Covered e r g y := by
  have hf := hg.function_eq hy
  have hhas : ∀ v, r.HasFormal g v → y.formals.contains v = true := by
    intro v hp
    obtain ⟨y', hy', hv⟩ := hp
    rw [hy] at hy'
    cases hy'
    exact hv
  have hmeets : ∀ v, e.program.InBody y.function v → Meets e r g v := by
    intro v hp
    obtain ⟨x', b, z, hx', hb, hz, hv⟩ := hp
    rw [hf, hx] at hx'
    cases hx'
    exact hblocks b hb z hz v hv
  refine ⟨fun x' v hx' hv => ?_, fun v hv => ?_, fun v hv => ?_, fun v callee args hv hcall => ?_⟩
  · rw [hf, hx] at hx'
    cases hx'
    exact hhas v (hparams v hv)
  · obtain ⟨w, hw, huses⟩ := hv
    exact hhas v ((hmeets w hw).touched v huses)
  · exact hhas v ((hmeets v hv.1).allocated hv.2)
  · exact (hmeets v hv).called callee args hcall

/-- The first node of a body whose graph has its exit. -/
theorem wp_firstNode {β : Type} {bad : Fault → Prop} {Q : β → Registry → Prop} {name : String}
    {k : NodeId → Work β}
    (h : ∀ y n, r.graph? g = some y → y.entryUnit?.bind (·.first?) = some n → wp bad (k n) Q r)
    (hgone : r.graph? g = none → bad (.graphGone g))
    (hfirst : ∀ y, r.graph? g = some y → y.entryUnit?.bind (·.first?) = none →
      bad (.noEntryBlock name))
    (hexit : ∀ y, r.graph? g = some y → y.exitUnit? = none → bad (.noExitUnit name)) :
    wp bad (firstNode g name >>= k) Q r := by
  unfold firstNode
  rw [bind_assoc]
  refine wp_graph (fun y hy => ?_) hgone
  rw [bind_assoc]
  refine wp_require (fun n hn => ?_) (hfirst y hy)
  rw [bind_assoc]
  exact wp_require (fun _ _ => h y n hy hn) (hexit y hy)

/-- What a build does once all edges to successors are there, and the exit: the control edges, one
more of the entry, and the last report. -/
def endBuild (e : Setup) (g : GraphId) (entry : NodeId) (x : Function) : Work Bool := do
  addControls e g
  addControl entry (← firstNode g x.name)
  updateGraph g fun y => { y with phase := .built }
  report (.built g x.name (← graph g).index.size)
  return true

/-- The phase of the graph is the last thing that a build changes. -/
theorem endBuild_spec {entry : NodeId} {x : Function} (hr : r.Orderly e.program) :
    wp Fault.Genuine (endBuild e g entry x) (fun isBuilt t => isBuilt = true ∧ ∃ s y,
      Evolves e r s ∧ s.graph? g = some y ∧
        t = s.reviseGraph g fun y => { y with phase := .built }) r := by
  unfold endBuild
  refine wp_bind (evolving_addControls r hr) fun _ s hs => ?_
  refine wp_firstNode (fun _ _ _ _ => ?_) (fun _ => nofun) (fun _ _ _ => nofun) fun _ _ _ => nofun
  refine wp_addControl fun z z' hz hz' => wp_updateGraph fun y hy => ?_
  refine wp_graph (fun _ _ => wp_report (wp_pure ?_)) fun _ => nofun
  exact ⟨rfl, _, y, hs.trans (.control (hs.orderly hr) hz hz'), hy, rfl⟩

/-- **Builds.** A finished build covers what its function asks for. -/
theorem buildWith_spec (hreq : Requests e k request) (hr : r.Orderly e.program)
    (hg : r.graph? g = some (.fresh f))
    (hk : f.index < e.program.functions.size → r.pending e.program < k) :
    wp Fault.Genuine (buildWith request e g) (fun isBuilt s =>
      (isBuilt = false → s = r) ∧ (isBuilt = true → Builds e r g s)) r := by
  unfold buildWith
  refine wp_graph (fun y hy => ?_) fun _ => nofun
  rw [hg] at hy
  cases hy
  refine wp_ask (fun x hx => ?_) nofun
  split
  · exact wp_pure ⟨fun _ => rfl, nofun⟩
  refine wp_report (wp_updateGraph fun _ _ => ?_)
  have hfirst : Quiet e.program r (r.reviseGraph g fun y => { y with phase := .building }) :=
    .phase nofun
  have hbuilds := fun s y => Builds.of_evolves (s := s) (y := y) hr hg
  have hr₁ := hr.change (.quiet hfirst)
  have hg₁ : (r.reviseGraph g fun y => { y with phase := .building }).graph? g =
      some { Graph.fresh f with phase := .building } := by
    simp [hg]
  have hk₁ : (r.reviseGraph g fun y => { y with phase := .building }).pending e.program < k :=
    Nat.lt_of_le_of_lt (pending_mono hfirst.grows) (hk (Module.index_lt_of_function hx))
  generalize (r.reviseGraph g fun y => { y with phase := .building }) = r₁ at *
  have hhosts : ∀ s, Evolves e r₁ s → s.Hosts g f := fun s hs =>
    Hosts.grows hs.grows ⟨_, hg₁, rfl⟩
  refine wp_beginBuild hr₁ hg₁ hx fun entry r₂ h₂ hparams => ?_
  refine wp_bind (visitBlocks_spec hreq (h₂.orderly hr₁)
    (Nat.lt_of_le_of_lt (pending_mono h₂.grows) hk₁) (hhosts r₂ h₂) hx) ?_
  intro _ r₃ hpost
  obtain ⟨h₃, hblocks⟩ := hpost
  have h₁₃ := h₂.trans h₃
  -- the rest of the work is about units and edges
  have hblock : Evolving e (updateGraph g fun y => { y with entryBlock? := x.entryBlock? }) :=
    .updateGraph g (fun _ => ⟨rfl, rfl, rfl, rfl, rfl, rfl, fun _ h => h⟩)
      fun _ hshaped => hshaped.of_eq rfl rfl rfl rfl rfl rfl
  have hsuccessors : Evolving e (forIn x.blocks PUnit.unit fun b _ => do
      addSuccessors e.program g b
      pure (.yield PUnit.unit)) :=
    .forIn fun b _ => .bind evolving_addSuccessors fun _ => .pure _
  -- however the exit came about, the end is the same
  have hend : ∀ s, Evolves e r₃ s → wp Fault.Genuine (endBuild e g entry x) (fun isBuilt t =>
      (isBuilt = false → t = r) ∧ (isBuilt = true → Builds e r g t)) s := by
    intro s hs
    refine wp_mono (endBuild_spec (hs.orderly (h₁₃.orderly hr₁))) fun isBuilt t hpost => ?_
    obtain ⟨rfl, u, y, hu, hy, rfl⟩ := hpost
    have hlater : Evolves e r₃ u := hs.trans hu
    have h : Evolves e r₁ u := h₁₃.trans hlater
    refine ⟨nofun, fun _ => hbuilds u y h hy (covered_of_meets (hhosts u h) hy hx
      (fun v hv => ?_) fun b hb z hz v hv => ?_)⟩
    · exact ((hparams v hv).grows h₃.grows).grows hlater.grows
    · exact (hblocks b hb z hz v hv).grows hlater.grows hlater.collects
  refine wp_bind (hblock r₃ (h₁₃.orderly hr₁)) fun _ r₄ h₄ => ?_
  refine wp_bind (hsuccessors r₄ (h₄.orderly (h₁₃.orderly hr₁))) fun _ r₅ h₅ => ?_
  have h₃₅ := h₄.trans h₅
  refine wp_graph (fun y hy => ?_) fun _ => nofun
  split
  · rename_i hnone
    refine wp_bind (addExit_spec (h₃₅.orderly (h₁₃.orderly hr₁)) hy
      (Option.isNone_iff_eq_none.1 hnone) .unreachable) fun _ r₆ h₆ => ?_
    exact hend r₆ (h₃₅.trans h₆)
  · exact hend r₅ h₃₅

/-! ## Requests -/

/-- A reference that no call holds is given back. -/
theorem unref_spec {bad : Fault → Prop} {y : Graph} (hy : r.graph? g = some y)
    (hlt : y.callers.size < y.refcount) : wp bad (unref g false) (fun _ s =>
      s = r.reviseGraph g fun y => { y with refcount := y.refcount - 1 }) r := by
  unfold unref unrefWith
  refine wp_registry ?_
  rw [hy]
  have h0 : y.refcount ≠ 0 := by omega
  simp only [if_neg h0, putGraph, Bool.false_and, Bool.false_eq_true, if_false]
  refine wp_modifyRegistry (wp_report (wp_pure ?_))
  exact reviseGraph_eq hy fun y => { y with refcount := y.refcount - 1 }

/-- What is true of links when the graph `g` is made and built. -/
theorem Builds.links (hr : r.Orderly e.program) (hf : r.lookup? f = none)
    (h : Builds e (r.pushGraph (.fresh f)) r.nextGraph s) :
    (∀ c k, r.Calls c k → r.Settled e.program c k → s.Settled e.program c k) ∧
      ∀ c k, s.Calls c k → r.Calls c k ∨ s.Settled e.program c k := by
  have hpush : Quiet e.program r (r.pushGraph (.fresh f)) := .graph hf
  refine ⟨fun c k hc hset => ?_, fun c k hc => ?_⟩
  · exact h.settled c k (hc.grows hpush.grows) (hpush.settled hr hc hset)
  · rcases h.linked c k hc with hc | hset
    · exact Or.inl ((hpush.keepsLinks.calls c k).1 hc)
    · exact Or.inr hset

/-- A graph that is made, built and given back is an evolution. -/
theorem Builds.evolves (hr : r.Orderly e.program) (hf : r.lookup? f = none)
    (h : Builds e (r.pushGraph (.fresh f)) r.nextGraph s) :
    Evolves e r (s.reviseGraph r.nextGraph fun y => { y with refcount := y.refcount - 1 }) {f} := by
  have hpush : Quiet e.program r (r.pushGraph (.fresh f)) := .graph hf
  obtain ⟨y, hy, hphase, hcov, hcount⟩ := h.built
  have hrelease : Quiet e.program s (s.reviseGraph r.nextGraph fun y =>
      { y with refcount := y.refcount - 1 }) := by
    refine .recount (k := fun n => n - 1) fun z hz h0 => ?_
    rw [hy] at hz
    cases hz
    -- the one reference of the request was not that of a caller
    have hnone : y.callers.size = 0 := by omega
    exact OrderedSet.size_eq_zero.1 hnone
  have hs : s.Orderly e.program := (hr.change (.quiet hpush)).changes h.changes
  have hsame : s.Collects e (s.reviseGraph r.nextGraph fun y =>
      { y with refcount := y.refcount - 1 }) := .of_eq (gathered_reviseGraph s _ _)
  obtain ⟨hsettled, hlinked⟩ := h.links hr hf
  refine ⟨?_, ?_, ?_, ?_, ?_, ?_, ?_, ?_, ?_⟩
  · exact .tail (.head (.quiet hpush) h.changes) (.quiet hrelease)
  · intro c k hc hset
    have hcs := (hc.grows hpush.grows).grows h.changes.grows
    exact hrelease.settled hs hcs (hsettled c k hc hset)
  · intro c k hc
    have hcs := (hrelease.keepsLinks.calls c k).1 hc
    rcases hlinked c k hcs with hc | hset
    · exact Or.inl hc
    · exact Or.inr (hrelease.settled hs hcs hset)
  · intro k z hz
    -- old graphs are none of the one that was made
    have hk : k ≠ r.nextGraph := ne_nextGraph hz
    obtain ⟨z', hz', hrest⟩ := h.old k z hk (by simpa [hk] using hz)
    exact ⟨z', by simpa [hk] using hz', hrest⟩
  · intro k z' hn hz'
    by_cases hk : k = r.nextGraph
    · subst hk
      rw [graph?_reviseGraph, if_pos rfl, hy] at hz'
      cases hz'
      refine ⟨hphase, hcov.grows hrelease.grows hsame (.of_eq rfl rfl rfl rfl fun _ h => h), ?_⟩
      show y.refcount - 1 = y.callers.size
      omega
    · obtain ⟨hp, hfresh, hfcount⟩ :=
        h.fresh k z' hk (by simpa [hk] using hn) (by simpa [hk] using hz')
      exact ⟨hp, hfresh.grows hrelease.grows hsame (.refl z'), hfcount⟩
  · intro k z' hn hz'
    have hpushed : (r.pushGraph (.fresh f)).Hosts r.nextGraph f := ⟨.fresh f, by simp, rfl⟩
    by_cases hk : k = r.nextGraph
    · -- the graph that was asked for
      subst hk
      rw [graph?_reviseGraph, if_pos rfl, hy] at hz'
      cases hz'
      rw [← (hpushed.grows h.changes.grows).function_eq hy]
      exact ⟨y.function, Or.inl rfl, .refl⟩
    · -- a graph made meanwhile was reached from a graph of before, or from the new one
      obtain ⟨i, ⟨j, z, hz, rfl⟩, hreach⟩ :=
        h.rooted k z' (by simpa [hk] using hn) (by simpa [hk] using hz')
      rw [graph?_pushGraph] at hz
      split at hz
      · cases hz
        exact ⟨f, Or.inl rfl, hreach⟩
      · exact ⟨z.function, Or.inr ⟨j, z, hz, rfl⟩, hreach⟩
  · exact (Numbers.pushGraph r _).trans (h.numbers.trans (Numbers.reviseGraph s _ _))
  · intro k
    have hv := variadic?_eq (formals?_reviseGraph (r := s) (g := r.nextGraph)
      (f := fun y => { y with refcount := y.refcount - 1 }) (fun _ => rfl) k)
    rw [← variadic?_pushGraph r f k]
    exact loops_trans hrelease.grows (h.loops k) (Or.inl hv)
  · have hpushed : r.Collects e (r.pushGraph (.fresh f)) := .of_eq rfl
    exact hpushed.trans (h.changes.grows.trans hrelease.grows)
      (h.collects.trans hrelease.grows hsame)

/-- The graph of a function, built if there is none. Calls of other functions have `nested` ask for
their graphs. -/
def requestRound (nested : FunctionId → Work GraphId) (e : Setup) (f : FunctionId) :
    Work GraphId := do
  match (← registry).lookup? f with
  | some g => return g
  | none =>
    let g ← newGraph f
    if !(← buildWith nested e g) then
      throw (.declaration (← ask (e.program.function f)).name)
    unref g false
    return g

theorem requestWithin_succ (e : Setup) (depth : Nat) :
    requestWithin e (depth + 1) = requestRound (requestWithin e depth) e := rfl

/-- A request nests others only where fewer functions are without a graph. -/
theorem requestRound_spec {nested : FunctionId → Work GraphId} (hreq : Requests e k nested)
    (hr : r.Orderly e.program) (hk : r.pending e.program ≤ k) :
    wp Fault.Genuine (requestRound nested e f) (fun g s => Evolves e r s {f} ∧ s.Hosts g f) r := by
  unfold requestRound
  refine wp_registry ?_
  -- the function has a graph, or it is built now
  cases hf : r.lookup? f with
  | some g => exact wp_pure ⟨.mono (.refl e r) (Set.empty_subset _), hr.enrolled.hosts hf⟩
  | none =>
    have hpush : Quiet e.program r (r.pushGraph (.fresh f)) := .graph hf
    have hg : (r.pushGraph (.fresh f)).graph? r.nextGraph = some (.fresh f) := by simp
    -- the function had no graph before, so there is one function less to nest for
    have hdepth : f.index < e.program.functions.size →
        (r.pushGraph (.fresh f)).pending e.program < k :=
      fun hlt => Nat.lt_of_lt_of_le (pending_pushGraph_lt hf hlt) hk
    refine wp_newGraph hf (wp_bind (buildWith_spec hreq (hr.change (.quiet hpush)) hg hdepth) ?_)
    intro isBuilt s hpost
    obtain ⟨_, hs⟩ := hpost
    cases isBuilt with
    | false => exact wp_ask (fun _ _ => wp_throw_bind nofun) nofun
    | true =>
      have hbuilds := hs rfl
      have hevolves := hbuilds.evolves hr hf
      obtain ⟨y, hy, _, _, hcount⟩ := hbuilds.built
      -- the reference that the build began with is given back
      refine wp_bind (unref_spec hy (by omega)) ?_
      intro _ t ht
      subst ht
      have hlink : s.Grows (s.reviseGraph r.nextGraph
          fun y => { y with refcount := y.refcount - 1 }) :=
        .reviseGraph fun _ _ => .of_eq rfl rfl rfl rfl fun _ h => h
      have hhosts : (r.pushGraph (.fresh f)).Hosts r.nextGraph f := ⟨_, hg, rfl⟩
      exact wp_pure ⟨hevolves, (hhosts.grows hbuilds.changes.grows).grows hlink⟩

/-- **Requests.** A request nests no deeper than there are functions without a graph. -/
theorem requestWithin_spec (e : Setup) : ∀ depth, Requests e depth (requestWithin e depth)
  | 0 => fun _ _ _ hk => absurd hk (Nat.not_lt_zero _)
  | depth + 1 => fun _ _ hr hk =>
    requestRound_spec (requestWithin_spec e depth) hr (Nat.le_of_lt_succ hk)

/-- A request ends, and lets the registry evolve. -/
theorem request_spec (hr : r.Orderly e.program) :
    wp Fault.Genuine (Work.request e f) (fun g s => Evolves e r s {f} ∧ s.Hosts g f) r := by
  have hle := r.pending_le e.program
  unfold Work.request
  exact requestWithin_spec e _ f r hr (by omega)

theorem requests (e : Setup) (k : Nat) : Requests e k (Work.request e) :=
  fun _ _ hr _ => request_spec hr

/-! ## The pool -/

theorem evolving_addGlobals : Evolving e (addGlobals e.program) := by
  refine .bind (.forIn fun v _ r hr => ?_) fun _ => .pure _
  refine wp_registry ?_
  -- each global gets one node
  cases hv : r.pool.contains v with
  | true => exact wp_pure (.refl e r)
  | false =>
    refine wp_newNode (wp_modifyRegistry (wp_pure ?_))
    exact .shared hr (OrderedMap.contains_eq_false_iff.1 hv)

theorem getOrBuild_spec (hr : r.Orderly e.program) :
    wp Fault.Genuine (getOrBuild e f) (fun g s => Evolves e r s {f} ∧ s.Hosts g f) r := by
  unfold getOrBuild
  refine wp_bind (evolving_addGlobals r hr) fun _ s hs => ?_
  refine wp_mono (request_spec (hs.orderly hr)) ?_
  intro g t hpost
  obtain ⟨ht, hg⟩ := hpost
  exact ⟨(hs.mono (Set.empty_subset _)).trans ht, hg⟩

end Work

end Sdg
