import Sdg.Proofs.Control.Bodies
import Sdg.Proofs.Safety.Builds

/-!
# Control edges of builds

A build opens the body of a new graph, and nested builds leave it open. When all blocks were visited
the body is complete, and the edges that it asks for are added last, so that in the end the graph is
like any other.

Main results:

* `buildWith_wired` — a build adds the control edges that its graph has to have;
* `wired_request` — a request keeps the control edges right, whatever is under way;
* `getOrBuild_wired`, `constructRoot_wired` — so do the steps that build.
-/

namespace Sdg

open Registry

namespace Registry

variable {m : Module} {phiControl : Bool} {r s : Registry} {B C G : Set GraphId} {g : GraphId}

/-! ## Exceptions -/

/-- Less is said where more graphs may change. -/
theorem Keeps.mono (h : Keeps B r s) (hB : B ⊆ C) : Keeps C r s :=
  ⟨⟨h.grows, h.graph, fun g hg => h.same g fun hgB => hg (hB hgB)⟩, h.pool⟩

/-- Nothing was kept of a graph that was not there. -/
theorem Keeps.of_new (h : Keeps (insert g B) r s) (hg : r.graph? g = none) : Keeps B r s := by
  refine ⟨⟨h.grows, h.graph, fun k hk y z hy hz => h.same k (fun hi => ?_) y z hy hz⟩, h.pool⟩
  rcases hi with rfl | hi
  · rw [hg] at hy
    cases hy
  · exact hk hi

/-! ## The beginning -/

theorem nextNode_registered (r : Registry) (f : FunctionId) :
    (Work.registered r f).nextNode = r.nextNode := by
  rw [Work.registered, nextNode_reviseGraph]
  rfl

theorem pool_entered (r : Registry) (f : FunctionId) (v : ValueId) :
    (Work.entered r f v).pool = r.pool := by
  rw [Work.entered, pool_reviseGraph, Registry.giveNode, pool_reviseGraph]
  change (Work.registered r f).pool = r.pool
  rw [Work.registered, pool_reviseGraph]
  rfl

theorem node?_entered (r : Registry) (f : FunctionId) (v : ValueId) (n : NodeId) :
    (Work.entered r f v).node? n =
      if n = r.nextNode then some (.fresh (.value v) (some r.nextGraph) none) else r.node? n := by
  have hnode : ∀ n, (Work.registered r f).node? n = r.node? n := fun n => by
    rw [Work.registered, node?_reviseGraph, node?_pushGraph]
  rw [Work.entered, node?_reviseGraph, node?_giveNode, hnode, nextNode_registered]

/-- A graph that was live stays as it was. -/
theorem graph?_entered_of_some {f : FunctionId} {v : ValueId} {y : Graph}
    (hy : r.graph? g = some y) : (Work.entered r f v).graph? g = some y := by
  rw [Work.graph?_entered, if_neg (ne_nextGraph hy), hy]

/-- A live graph is the new one, which has only its entry, or it was there before. -/
theorem eq_of_graph?_entered {f : FunctionId} {v : ValueId} {z : Graph}
    (hz : (Work.entered r f v).graph? g = some z) :
    g = r.nextGraph ∧ z = Work.enteredGraph r f v ∨ r.graph? g = some z := by
  rw [Work.graph?_entered] at hz
  split at hz
  · exact Or.inl ⟨‹_›, (Option.some.inj hz).symm⟩
  · exact Or.inr hz

theorem unit?_enteredGraph (r : Registry) (f : FunctionId) (v : ValueId) (k : BlockKey) :
    (Work.enteredGraph r f v).unit? k = none := by
  cases k <;> rfl

/-- The new graph is entered under its function. -/
theorem lookup?_entered (r : Registry) (f : FunctionId) (v : ValueId) (k : FunctionId) :
    (Work.entered r f v).lookup? k = if k = f then some r.nextGraph else r.lookup? k := by
  have hsame : (Work.entered r f v).byFunction = (r.pushGraph (.fresh f)).byFunction := by
    simp [Work.entered, Work.registered]
  rw [lookup?_of_byFunction hsame]
  exact lookup?_pushGraph r (.fresh f) k

theorem grows_entered {f : FunctionId} (hf : r.lookup? f = none) (v : ValueId) :
    r.Grows (Work.entered r f v) := by
  refine ⟨fun n x hx => ⟨x, ?_, .refl x⟩, fun g y hy => ⟨y, graph?_entered_of_some hy, .refl y⟩,
    fun k g hg => ?_⟩
  · rw [node?_entered, if_neg (ne_nextNode hx), hx]
  · rw [lookup?_entered, if_neg, hg]
    -- the function had no graph before
    rintro rfl
    rw [hf] at hg
    cases hg

theorem Keeps.enter {f : FunctionId} (B : Set GraphId) (hf : r.lookup? f = none) (v : ValueId) :
    Keeps B r (Work.entered r f v) := by
  have hsame : ∀ {k y z}, r.graph? k = some y → (Work.entered r f v).graph? k = some z → z = y := by
    intro k y z hy hz
    rw [graph?_entered_of_some hy] at hz
    exact (Option.some.inj hz).symm
  refine ⟨⟨grows_entered hf v, fun k y z hy hz => ?_, fun k _ y z hy hz => ?_⟩,
    pool_entered r f v⟩
  · rw [hsame hy hz]
    exact .refl y
  · rw [hsame hy hz]
    exact .refl y

theorem seated_entered (m : Module) (r : Registry) (f : FunctionId) (v : ValueId) :
    (Work.entered r f v).Seated m (Work.enteredGraph r f v) where
  nodes k u hu := by
    rw [unit?_enteredGraph] at hu
    cases hu
  opened b u x v' rest hu := by
    rw [unit?_enteredGraph] at hu
    cases hu
  entry n hn := by
    cases hn
    exact ⟨_, (node?_entered ..).trans (if_pos (nextNode_registered r f)), rfl⟩
  exit := nofun
  start := nofun

/-- A graph that has only its entry has no control edges, and an open body asks for none. -/
theorem Wired.enter {f : FunctionId} (hr : r.Wired m phiControl B G) (hf : r.lookup? f = none)
    (v : ValueId) : (Work.entered r f v).Wired m phiControl (insert r.nextGraph B) (insert r.nextGraph G) := by
  have hgrows := grows_entered hf v
  have hnode := node?_entered r f v
  have hedges : r.KeepsEdges (Work.entered r f v) := .of_fresh hnode
  constructor
  case within => exact Set.insert_subset_insert hr.within
  case live =>
    intro k hkG
    rcases hkG with rfl | hkG
    · exact ⟨_, (Work.graph?_entered ..).trans (if_pos rfl)⟩
    · obtain ⟨y, hy⟩ := hr.live k hkG
      exact ⟨y, graph?_entered_of_some hy⟩
  case seated =>
    intro k z hz
    rcases eq_of_graph?_entered hz with ⟨_, rfl⟩ | hz
    · exact seated_entered m r f v
    · exact (hr.seated k z hz).of_sameNodes hgrows (.refl z)
  case formals =>
    intro k z n i q b hz hn hq
    rcases eq_of_graph?_entered hz with ⟨_, rfl⟩ | hz
    · rw [show (Work.enteredGraph r f v).formals = .empty from rfl, Parameters.at?_empty] at hq
      cases hq
    · exact (hr.formals k z n i q b hz hn hq).grows hgrows
  case actuals =>
    intro c x' i q b hx' hq
    obtain ⟨x, hx, hq⟩ := exists_actual_of_fresh hnode hx' hq
    exact (hr.actuals c x i q b hx hq).grows hgrows
  case calls =>
    intro c k hc
    obtain ⟨y, hy, hcontrols⟩ := hr.calls c k ((calls_iff_of_fresh hnode c k).1 hc)
    exact ⟨y, graph?_entered_of_some hy, fun n hn => (hcontrols n hn).grows hgrows⟩
  case arranged =>
    intro k hkG a b hab
    obtain ⟨z, hz⟩ := hab.exists_graph
    -- the new body is one of the exceptions, of all others nothing changed
    rcases eq_of_graph?_entered hz with ⟨rfl, _⟩ | hy
    · exact absurd (Set.mem_insert _ _) hkG
    · exact (hr.arranged k (fun hG => hkG (Set.mem_insert_of_mem _ hG)) a b
        (hab.of_grows hgrows hy hz (.refl z) (hr.seated k z hy))).grows hgrows
  case sound =>
    intro a b hab
    rcases hr.sound a b ((hedges.controls_iff a b).1 hab) with hatt | ⟨k, hkB, harr⟩
    · exact Or.inl (hatt.follows (Keeps.enter B hf v).toFollows)
    · obtain ⟨y, hy⟩ := harr.exists_graph
      refine Or.inr ⟨k, fun hi => hi.elim (ne_nextGraph hy) hkB, ?_⟩
      exact harr.grows hgrows hy (graph?_entered_of_some hy) (.refl y)

end Registry

namespace Work

variable {e : Setup} {r₀ r s : Registry} {B G : Set GraphId} {n : NodeId} {g : GraphId}
  {f : FunctionId} {y : Graph} {x : Function} {v : ValueId} {request : FunctionId → Work GraphId}

/-! ## The end -/

/-- The phis of the graph are controlled as its body asks. -/
def Decided (m : Module) (r : Registry) (g : GraphId) : Prop :=
  ∀ y k u a b, r.graph? g = some y → y.unit? (.block k) = some u → b ∈ u.nodes →
    r.FlowsInto m y k a b → r.Controls a b

/-- They are so after all control edges were added. -/
theorem addControls_wired (hr : r.Wired e.program e.settings.phiControl B G) (hg : g ∉ B)
    (hy : r.graph? g = some y) :
    wp Fault.Any (addControls e g) (fun _ s => WiredFrom e r B G s ∧
      (e.settings.phiControl = true → Decided e.program s g)) r := by
  unfold addControls
  have hscopes : wp Fault.Any (if e.settings.controlScopes = true then addScopeControls e g
      else pure ()) (fun _ s => WiredFrom e r B G s) r :=
    Maintains.ite (fun _ => wired_addScopeControls) (fun _ => .pure _) r ⟨.refl r, hr⟩
  refine wp_when (wp_bind hscopes fun _ s hs => ?_)
  have hphis : wp Fault.Any (if e.settings.phiControl = true then addPhiControls e.program g
      else pure ()) (fun _ t => WiredFrom e s B G t ∧ (e.settings.phiControl = true →
        ∀ y k u a b, s.graph? g = some y → y.unit? (.block k) = some u → b ∈ u.nodes →
          s.FlowsInto e.program y k a b → t.Controls a b)) s := by
    split
    · rename_i hphi
      refine wp_fault (wp_mono (addPhiControls_wired hs.2 hg hphi) ?_) fun _ _ => trivial
      intro _ t ht
      exact ⟨ht.1, fun _ => ht.2⟩
    · rename_i hphi
      exact wp_pure ⟨⟨.refl s, hs.2⟩, fun h => absurd h hphi⟩
  refine wp_when (wp_bind hphis ?_)
  intro _ t hpost
  obtain ⟨ht, hdecided⟩ := hpost
  have hloops : wp Fault.Any (if e.settings.selfLoops = true then addLoopControls g else pure ())
      (fun _ u => WiredFrom e t B G u) t :=
    Maintains.ite (fun _ => wired_addLoopControls) (fun _ => .pure _) t ⟨.refl t, ht.2⟩
  refine wp_mono hloops fun _ w hw => ⟨⟨(hs.1.trans ht.1).trans hw.1, hw.2⟩, ?_⟩
  intro hphi y₂ k u₂ a b hy₂ hu₂ hb hinto
  -- neither the phis nor what flows into them have changed since
  have hk := ht.1.trans hw.1
  obtain ⟨y₁, hy₁, _⟩ := hs.1.exists_graph hy
  have hsame := hk.same g hg y₁ y₂ hy₁ hy₂
  have hseated := hs.2.seated g y₁ hy₁
  obtain ⟨u₁, hu₁, he⟩ := hsame.exists_unit hu₂
  refine (hdecided hphi y₁ k u₁ a b hy₁ hu₁ (he ▸ hb) (hinto.transfer hsame.symm ?_)).grows
    hw.1.grows
  exact fun x hx => hseated.key_of_grows hk.grows hu₁ (he ▸ hb) hx

/-- **The end.** With the edges that are added last the graph is no exception any more. -/
theorem endBuild_wired {entry : NodeId}
    (hr : r.Wired e.program e.settings.phiControl B (insert g G)) (hB : B ⊆ G) (hg : g ∉ B)
    (hy : r.graph? g = some y) (hentry : y.entryNode? = some entry)
    (hx : e.program.function y.function = .ok x) :
    wp Fault.Any (endBuild e g entry x)
      (fun isBuilt s => isBuilt = true ∧ WiredFrom e r B G s) r := by
  refine wp_bind (addControls_wired hr hg hy) ?_
  intro _ s hpost
  obtain ⟨⟨hk, hw⟩, hdecided⟩ := hpost
  obtain ⟨z, hz, hkeeps, hgrows⟩ := hk.exists_graph hy
  have hzfun : e.program.function z.function = .ok x := hgrows.function ▸ hx
  refine wp_firstNode (fun z' first hz' hfirst => ?_) (fun _ => trivial) (fun _ _ _ => trivial)
    fun _ _ _ => trivial
  rw [hz] at hz'
  cases hz'
  -- the node that the entry comes to control is the first one of the first block
  obtain ⟨u, hunit, hfirst⟩ := Option.bind_eq_some_iff.1 hfirst
  obtain ⟨k, hblock, hu⟩ := Option.bind_eq_some_iff.1 hunit
  obtain ⟨x', hx', hstart⟩ := (hw.seated g z hz).start k hblock
  rw [hzfun] at hx'
  cases hx'
  have hzentry := hkeeps.entryNode? entry hentry
  have harr : s.Arranged e.program e.settings.phiControl g entry first :=
    .first hz hzentry hzfun hstart hu hfirst
  obtain ⟨xe, hxe, _⟩ := (hw.seated g z hz).entry entry hzentry
  obtain ⟨xf, hxf, _⟩ := (hw.seated g z hz).nodes (.block k) u hu first (List.mem_of_head? hfirst)
  refine wp_addControl_live hxe hxf ?_
  -- the edge is drawn, then the phase changes, which no edge depends on
  obtain ⟨hk₁, hw₁⟩ := hw.control hxe (Or.inr ⟨g, hg, harr⟩)
  have hz₁ : (s.control entry first).graph? g = some z := by simpa using hz
  have hbody : z.SameNodes { z with phase := .built } := .of_units rfl rfl rfl rfl rfl rfl rfl
  obtain ⟨hk₂, hw₂⟩ := hw₁.dress (f := fun y => { y with phase := .built }) hz₁ hbody
    (.of_eq rfl rfl rfl rfl fun _ h => h) rfl
  refine wp_updateGraph_live hz₁ (wp_graph (fun _ _ => wp_report (wp_pure ⟨rfl, ?_, ?_⟩))
    fun _ => trivial)
  · exact (hk.trans hk₁).trans hk₂
  · -- the body asks for what it asked for before the last edge, and has it
    refine hw₂.close hB fun a b hab => ?_
    have hk' := hk₁.trans hk₂
    obtain ⟨z₂, hz₂, _⟩ := hk'.exists_graph hz
    have hab' := hab.of_grows hk'.grows hz hz₂ (hk'.same g hg z z₂ hz hz₂) (hw.seated g z hz)
    cases hab' with
    | first hz' ha hf hk' hu' hb =>
      rw [hz] at hz'
      cases hz'
      rw [hzentry] at ha
      rw [hzfun] at hf
      cases ha
      cases hf
      rw [hstart] at hk'
      cases hk'
      rw [show z.unit? (.block k) = some u from hu] at hu'
      cases hu'
      rw [show u.first? = some first from hfirst] at hb
      cases hb
      exact ((controls_control hxe).2 (Or.inr ⟨rfl, rfl⟩)).grows hk₂.grows
    | phi hphi hz' hu' hb hinto =>
      exact (hdecided hphi _ _ _ _ _ hz' hu' hb hinto).grows (hk₁.trans hk₂).grows

/-! ## Builds -/

/-- The first block of the function is noted in an open body. -/
theorem wired_begin (hg : g ∈ B) (hx : e.program.function f = .ok x) (hf : r₀.Hosts g f) :
    Maintains Fault.Any (WiredFrom e r₀ B G)
      (updateGraph g fun y => { y with entryBlock? := x.entryBlock? }) := by
  intro r hr
  obtain ⟨y₀, hy₀, hfun⟩ := hf
  obtain ⟨y, hy, _, hgrows⟩ := hr.1.exists_graph hy₀
  have hxy : e.program.function y.function = .ok x := by rw [hgrows.function, hfun, hx]
  refine wp_last (wp_updateGraph_live hy (wp_pure ?_))
  have hself : r.Grows (r.reviseGraph g fun y => { y with entryBlock? := x.entryBlock? }) :=
    .reviseGraph fun _ _ => .of_eq rfl rfl rfl rfl fun _ h => h
  have hs := hr.2.seated g y hy
  obtain ⟨hk, hw⟩ := hr.2.reviseGraph (f := fun y => { y with entryBlock? := x.entryBlock? }) hy
    (.of_eq rfl rfl rfl rfl fun _ h => h)
    ⟨fun _ h => h, fun _ h => h, fun _ u _ hu hn => ⟨u, hu, hn⟩⟩
    (Or.inr ⟨hg, fun k u hu n hn => (hs.nodes k u hu n hn).grows hself, hs.opened,
      fun n hn => (hs.entry n hn).grows hself, fun n hn => (hs.exit n hn).grows hself,
      fun b hb => ⟨x, hxy, hb⟩⟩) rfl rfl
  exact ⟨hr.1.trans hk, hw⟩

/-- **Builds.** A build adds the control edges that its graph has to have, and its nested builds
keep those of the others right. -/
theorem buildWith_wired
    (hreq : ∀ r₀ B G f, Maintains Fault.Any (WiredFrom e r₀ B G) (request f))
    (hr : r.Wired e.program e.settings.phiControl B G) (hf : r.lookup? f = none) :
    wp Fault.Any (buildWith request e r.nextGraph) (fun isBuilt s =>
      (isBuilt = true → WiredFrom e r B G s) ∧ (isBuilt = false → s = r.pushGraph (.fresh f)))
      (r.pushGraph (.fresh f)) := by
  refine wp_buildWith (fun _ _ _ => ⟨nofun, fun _ => rfl⟩) (fun x hx _ => ?_) fun _ _ => trivial
  unfold fillBody
  have hk₁ := Keeps.enter B hf x.value
  have hw₁ := hr.enter hf x.value
  have hg₁ := (graph?_entered r f x.value r.nextGraph).trans (if_pos rfl)
  have hv₁ : (entered r f x.value).variadic? r.nextGraph = none := by
    rw [Registry.variadic?, formals?, hg₁]
    rfl
  refine wp_bind (wp_fault (addDeclaredFormals_wired hv₁ hw₁) fun _ _ => trivial) fun _ s₁ h₁ => ?_
  -- until all blocks were visited the body is open
  have hopen : r.nextGraph ∈ insert r.nextGraph B := Set.mem_insert _ _
  have hblocks : Maintains Fault.Any (WiredFrom e (entered r f x.value) (insert r.nextGraph B)
      (insert r.nextGraph G)) (forIn x.blocks PUnit.unit fun b _ => do
        visitBlock request e r.nextGraph b
        pure (.yield PUnit.unit)) :=
    .forIn fun _ _ _ => .bind (wired_visitBlock (hreq _ _ _) hopen) fun _ => .pure _
  refine wp_bind (hblocks s₁ h₁) fun _ s₂ h₂ => ?_
  refine wp_bind (wired_begin hopen hx ⟨_, hg₁, rfl⟩ s₂ h₂) fun _ s₃ h₃ => ?_
  have hsuccessors : Maintains Fault.Any (WiredFrom e (entered r f x.value)
      (insert r.nextGraph B) (insert r.nextGraph G)) (forIn x.blocks PUnit.unit fun b _ => do
        addSuccessors e.program r.nextGraph b
        pure (.yield PUnit.unit)) :=
    .forIn fun _ _ _ => .bind wired_addSuccessors fun _ => .pure _
  refine wp_bind (hsuccessors s₃ h₃) fun _ s₄ h₄ => ?_
  obtain ⟨y, hy, _⟩ := h₄.1.exists_graph hg₁
  -- nothing was kept of the new graph before
  have hnew : r.nextGraph ∉ B := by
    intro hB
    obtain ⟨y, hy⟩ := hr.live _ (hr.within hB)
    rw [graph?_nextGraph] at hy
    cases hy
  have hend : ∀ t,
      WiredFrom e (entered r f x.value) (insert r.nextGraph B) (insert r.nextGraph G) t →
      wp Fault.Any (endBuild e r.nextGraph (registered r f).nextNode x) (fun isBuilt s =>
        (isBuilt = true → WiredFrom e r B G s) ∧
          (isBuilt = false → s = r.pushGraph (.fresh f))) t := by
    intro t ht
    obtain ⟨z, hz, hkeeps, hgrows⟩ := ht.1.exists_graph hg₁
    have hzfun : e.program.function z.function = .ok x := by
      rw [hgrows.function]
      exact hx
    refine wp_mono (endBuild_wired ht.2.seal hr.within hnew hz (hkeeps.entryNode? _ rfl) hzfun) ?_
    intro isBuilt s hpost
    obtain ⟨rfl, hks, hws⟩ := hpost
    have hkeep : Keeps B r t :=
      ((hk₁.mono (Set.subset_insert _ B)).trans ht.1).of_new (graph?_nextGraph r)
    exact ⟨fun _ => ⟨hkeep.trans hks, hws⟩, fun h => absurd h.symm Bool.false_ne_true⟩
  refine wp_graph_live hy ?_
  -- a function that never returns has no exit yet
  split
  · rename_i hnone
    refine wp_bind (wp_fault (addExit_wired h₄.2 hopen hy (Option.isNone_iff_eq_none.1 hnone)
      .unreachable) fun _ _ => trivial) fun _ s₅ h₅ => ?_
    exact hend s₅ ⟨h₄.1.trans h₅.1.1, h₅.1.2⟩
  · exact hend s₄ h₄

/-! ## Requests -/

/-- Giving back a reference without tearing anything down. -/
theorem wired_unref : Maintains Fault.Any (WiredFrom e r₀ B G) (unref g false) := by
  intro r hr
  unfold unref unrefWith
  refine wp_registry ?_
  cases hy : r.graph? g with
  | none => exact wp_pure hr
  | some y =>
    simp only [putGraph, Bool.false_and, Bool.false_eq_true, if_false]
    split
    · exact Maintains.ite (fun _ => .throw trivial) (fun _ => .pure _) r hr
    · refine wp_modifyRegistry (wp_report (wp_pure ?_))
      rw [reviseGraph_eq hy fun y => { y with refcount := y.refcount - 1 }]
      obtain ⟨hk, hw⟩ := hr.2.dress (f := fun y => { y with refcount := y.refcount - 1 }) hy
        (.of_units rfl rfl rfl rfl rfl rfl rfl) (.of_eq rfl rfl rfl rfl fun _ h => h) rfl
      exact ⟨hr.1.trans hk, hw⟩

/-- A request of a function whose graph may have to be built. -/
theorem wired_requestRound {nested : FunctionId → Work GraphId}
    (hreq : ∀ r₀ B G f, Maintains Fault.Any (WiredFrom e r₀ B G) (nested f)) :
    Maintains Fault.Any (WiredFrom e r₀ B G) (requestRound nested e f) := by
  intro r hr
  unfold requestRound
  refine wp_registry ?_
  cases hf : r.lookup? f with
  | some g => exact wp_pure hr
  | none =>
    refine wp_newGraph hf (wp_bind (buildWith_wired hreq hr.2 hf) fun isBuilt s hs => ?_)
    cases isBuilt with
    | false => exact wp_ask (fun _ _ => wp_throw_bind trivial) fun _ _ => trivial
    | true =>
      obtain ⟨hk, hw⟩ := hs.1 rfl
      exact Maintains.bind (wired_unref (g := r.nextGraph)) (fun _ => .pure _) s
        ⟨hr.1.trans hk, hw⟩

theorem wired_requestWithin (e : Setup) (depth : Nat) : ∀ r₀ B G f,
    Maintains Fault.Any (WiredFrom e r₀ B G) (requestWithin e depth f) := by
  induction depth with
  | zero => exact fun _ _ _ _ => .throw trivial
  | succ depth ih => exact fun _ _ _ _ => wired_requestRound ih

/-- **Requests.** A request keeps the control edges right, whatever is under way. -/
theorem wired_request : Maintains Fault.Any (WiredFrom e r₀ B G) (Work.request e f) :=
  wired_requestWithin e _ r₀ B G f

/-! ## Steps -/

/-- The pool gets a node for each global, and keeps what it has. -/
theorem addGlobals_wired (hr : r.Wired e.program e.settings.phiControl B G) :
    wp Fault.Any (addGlobals e.program) (fun _ s => s.Wired e.program e.settings.phiControl B G ∧
      ∀ v, (∃ n, s.pool.get? v = some n) ↔ (∃ n, r.pool.get? v = some n) ∨ v ∈ e.program.globals)
      r := by
  unfold addGlobals
  refine wp_bind (wp_forIn (fun done _ s => s.Wired e.program e.settings.phiControl B G ∧
    ∀ v, (∃ n, s.pool.get? v = some n) ↔ (∃ n, r.pool.get? v = some n) ∨ v ∈ done)
    ⟨hr, fun v => by simp⟩ ?_) fun _ _ hs => wp_pure hs
  intro done v rest _ s _ hpost
  obtain ⟨hw, hpool⟩ := hpost
  refine wp_registry ?_
  cases hv : s.pool.contains v with
  | true =>
    refine wp_pure ⟨_, rfl, hw, fun w => ?_⟩
    rw [hpool, List.mem_append, List.mem_singleton, ← or_assoc, ← hpool]
    -- the global has its node already
    refine (or_iff_left_of_imp fun hw => ?_).symm
    rw [hw]
    exact OrderedMap.contains_eq_true_iff.1 hv
  | false =>
    refine wp_newNode (wp_modifyRegistry (wp_pure ⟨_, rfl, hw.giveShared v, fun w => ?_⟩))
    change (∃ n, (s.pool.insert v s.nextNode).get? w = some n) ↔ _
    rw [List.mem_append, List.mem_singleton, ← or_assoc, ← hpool, OrderedMap.get?_insert]
    split
    · exact iff_of_true ⟨_, rfl⟩ (Or.inr ‹_›)
    · exact (or_iff_left ‹_›).symm

theorem getOrBuild_wired (hr : r.Wired e.program e.settings.phiControl B G) :
    wp Fault.Any (getOrBuild e f)
      (fun _ s => s.Wired e.program e.settings.phiControl B G) r := by
  unfold getOrBuild
  refine wp_bind (addGlobals_wired hr) fun _ s hs => ?_
  exact wp_mono (wired_request s ⟨.refl s, hs.1⟩) fun _ _ ht => ht.2

/-- **Roots.** A root keeps the control edges right, and when it is there the pool has a node for
each global. -/
theorem constructRoot_wired (hr : r.Orderly e.program)
    (hw : r.Wired e.program e.settings.phiControl B G) (name : String) :
    wp Fault.Any (constructRoot e name) (fun root? s =>
      s.Wired e.program e.settings.phiControl B G ∧ ∀ g, root? = .ok g →
        ∀ v, (∃ n, s.pool.get? v = some n) ↔
          (∃ n, r.pool.get? v = some n) ∨ v ∈ e.program.globals) r := by
  unfold constructRoot
  split
  · exact wp_report (wp_pure ⟨hw, fun _ h => by cases h⟩)
  rename_i f hname
  refine wp_bind (wp_and (wp_fault (evolving_addGlobals r hr) fun _ _ => trivial)
    (addGlobals_wired hw)) ?_
  intro _ s hpost
  obtain ⟨hev, hws, hpool⟩ := hpost
  have hs := hev.orderly hr
  refine wp_registry ?_
  cases hf : s.lookup? f with
  | some g =>
    obtain ⟨y, hy, _⟩ := hs.enrolled.hosts hf
    refine wp_bind (P := fun _ t => WiredFrom e s B G t) ?_ fun _ t ht =>
      wp_pure ⟨ht.2, fun _ _ => ht.1.pool ▸ hpool⟩
    exact wp_last (wp_updateGraph_live hy (wp_pure (hws.dress hy (.of_units rfl rfl rfl rfl rfl rfl
      rfl) (.of_eq rfl rfl rfl rfl fun _ h => h) rfl)))
  | none =>
    refine wp_report (wp_newGraph hf (wp_bind (buildWith_wired (fun _ _ _ _ => wired_request) hws hf) ?_))
    intro isBuilt t hpost
    obtain ⟨htrue, hfalse⟩ := hpost
    cases isBuilt with
    | true =>
      obtain ⟨hk, hwt⟩ := htrue rfl
      exact wp_registry (wp_report (wp_pure ⟨hwt, fun _ _ => hk.pool ▸ hpool⟩))
    | false =>
      -- nothing is left of the graph of a declaration
      have ht := hfalse rfl
      subst ht
      refine wp_bind (wp_fault (destroy_fresh_spec hs hf) fun _ => False.elim) fun _ u hu => ?_
      exact wp_pure ⟨hws.of_views hu.node? hu.graph hu.lookup, fun _ h => by cases h⟩

end Work

end Sdg
