import Sdg.Build.Body
import Sdg.Proofs.Control.Steps
import Sdg.Proofs.Building.Linking
import Sdg.Proofs.Maintained

/-!
# Control edges of parameters and links

Every piece of work that spreads parameters or links calls keeps the control edges right, on
whatever registry it is started and whatever faults it ends in: a parameter that is new comes with
its edges, and what is there already has them. Nothing has to be known about the graphs that it is
about.

Main results:

* `wired_bindActuals`, `wired_propagate`, `wired_absorb` — parameters;
* `wired_linkCall`, `wired_visitCall` — links.
-/

namespace Sdg

open Registry

/-- The control edges are right, and what was in `r₀` is kept. -/
abbrev Registry.WiredFrom (e : Setup) (r₀ : Registry) (B G : Set GraphId) (r : Registry) : Prop :=
  Keeps B r₀ r ∧ r.Wired e.program e.settings.phiControl B G

namespace Work

variable {α : Type} {e : Setup} {r₀ r : Registry} {B G : Set GraphId} {c n : NodeId} {g h : GraphId}
  {v : ValueId} {y : Graph} {request : FunctionId → Work GraphId}

/-- What is shown from a single registry on. -/
theorem maintains_wired {w : Work α} (h : ∀ r : Registry,
    r.Wired e.program e.settings.phiControl B G →
      wp Fault.Genuine w (fun _ s => WiredFrom e r B G s) r) :
    Maintains Fault.Any (WiredFrom e r₀ B G) w := by
  intro r hr
  refine wp_fault (wp_mono (h r hr.2) ?_) fun _ _ => trivial
  intro _ s hs
  exact ⟨hr.1.trans hs.1, hs.2⟩

/-! ## Formal parameters -/

/-- Entering a parameter in one of the two slots for `v`. The variadic slot stays as it is. -/
theorem addSlot_wired {i : Slot} (hi : i = .own v ∨ i = .global v)
    (hr : r.Wired e.program e.settings.phiControl B G) :
    wp Fault.Genuine (addSlot g i v)
      (fun _ s => WiredFrom e r B G s ∧ s.variadic? g = r.variadic? g) r := by
  refine wp_addSlot hi (fun _ _ _ => ⟨⟨.refl r, hr⟩, rfl⟩) fun y en x hy hvacant hen hx => ?_
  exact ⟨hr.giveFormal hy hen hvacant hx, variadic?_giveFormal hy hvacant hi ..⟩

theorem wired_addFormal : Maintains Fault.Any (WiredFrom e r₀ B G) (addFormal g v) :=
  maintains_wired fun _ hr => wp_mono (addSlot_wired (i := .own v) (Or.inl rfl) hr)
    fun _ _ hs => hs.1

theorem wired_addFormalGlobal : Maintains Fault.Any (WiredFrom e r₀ B G) (addFormalGlobal g v) :=
  maintains_wired fun _ hr => wp_mono (addSlot_wired (i := .global v) (Or.inr rfl) hr)
    fun _ _ hs => hs.1

/-- The variadic parameter of a graph that has none. -/
theorem addVariadic_wired {id : FunctionId} (hv : r.variadic? g = none)
    (hr : r.Wired e.program e.settings.phiControl B G) :
    wp Fault.Genuine (addVariadic g id) (fun _ s => WiredFrom e r B G s) r := by
  unfold addVariadic newFormalPair
  rw [bind_assoc]
  refine wp_entry fun y en hy hen => wp_addPair fun x hx => wp_addData fun _ _ _ _ => ?_
  refine wp_last (wp_setVariadic fun _ _ _ => wp_pure ?_)
  -- the pair might as well have been entered first
  rw [reviseGraph_feed, reviseGraph_control, reviseGraph_control]
  have hvacant : y.formals.variadic? = none := by
    simpa [Registry.variadic?, formals?, hy] using hv
  have hx' : (r.giveFormal g (.variadic id) .variadic).node? en = some x := by
    rw [giveFormal, node?_reviseGraph]
    exact hx
  obtain ⟨hk, hw⟩ := hr.giveFormal (i := .variadic) hy hen hvacant hx'
  obtain ⟨hk', hw'⟩ := hw.feed r.nextPair.input r.nextPair.output
  exact ⟨hk.trans hk', hw'⟩

/-- The parameters that a function declares, for a graph without a variadic parameter. -/
theorem addDeclaredFormals_wired {id : FunctionId} {f : Function} (hv : r.variadic? g = none)
    (hr : r.Wired e.program e.settings.phiControl B G) :
    wp Fault.Genuine (addDeclaredFormals g id f) (fun _ s => WiredFrom e r B G s) r := by
  unfold addDeclaredFormals
  refine wp_bind (wp_forIn (fun _ _ s => WiredFrom e r B G s ∧ s.variadic? g = none)
    ⟨⟨.refl r, hr⟩, hv⟩ ?_) ?_
  · intro done v rest _ s _ hpost
    obtain ⟨⟨hk, hw⟩, hnone⟩ := hpost
    refine wp_bind (addSlot_wired (i := .own v) (Or.inl rfl) hw) ?_
    intro _ t hpost
    obtain ⟨⟨hk', hw'⟩, hsame⟩ := hpost
    exact wp_pure ⟨_, rfl, ⟨hk.trans hk', hw'⟩, hsame.trans hnone⟩
  · intro _ s hpost
    obtain ⟨⟨hk, hw⟩, hnone⟩ := hpost
    split
    · refine wp_mono (addVariadic_wired hnone hw) ?_
      intro _ t hpost
      exact ⟨hk.trans hpost.1, hpost.2⟩
    · exact wp_pure ⟨hk, hw⟩

/-! ## Actual parameters -/

/-- The pair under which a call passes a value. -/
theorem wired_actualPair (isGlobal : Bool) :
    Maintains Fault.Any (WiredFrom e r₀ B G) (actualPair c h v isGlobal) :=
  maintains_wired fun r hr => wp_actualPair isGlobal (fun _ _ _ _ => ⟨.refl r, hr⟩)
    fun _ _ hx _ hvacant => hr.giveActual hx hvacant

theorem wired_addData {a b : NodeId} : Maintains Fault.Any (WiredFrom e r₀ B G) (addData a b) :=
  maintains_wired fun _ hr => wp_last (wp_addData fun _ _ _ _ => wp_pure (hr.feed a b))

theorem wired_bind {formal : ParameterPair} (isGlobal : Bool) :
    Maintains Fault.Any (WiredFrom e r₀ B G) (bind c h v formal isGlobal) :=
  .bind (wired_actualPair isGlobal) fun _ => .bind wired_addData fun _ => wired_addData

theorem wired_owner : Maintains Fault.Any (WiredFrom e r₀ B G) (owner c) :=
  .bind (.node trivial) fun _ => .require fun _ => trivial

theorem wired_arguments : Maintains Fault.Any (WiredFrom e r₀ B G) (arguments e.program c) := by
  refine .bind (.node trivial) fun _ => .bind (.ask fun _ _ => trivial) fun op? => ?_
  split
  · exact .pure _
  · exact .throw trivial

theorem wired_bindActuals :
    Maintains Fault.Any (WiredFrom e r₀ B G) (bindActuals e.program c g) := by
  refine .bind wired_owner fun _ => .bind wired_arguments fun _ => ?_
  refine .bind (.graph trivial) fun _ => ?_
  refine .bind (.ask fun _ _ => trivial) fun _ => .bind (.forIn fun p _ _ => ?_) fun _ => .pure _
  exact .bind (wired_bind p.2.2) fun _ => .pure _

/-! ## Propagation -/

theorem wired_absorbWith {propagate : GraphId → Work Unit}
    (hp : ∀ g, Maintains Fault.Any (WiredFrom e r₀ B G) (propagate g)) :
    Maintains Fault.Any (WiredFrom e r₀ B G) (absorbWith propagate e.program g h) := by
  refine .bind (.graph trivial) fun y => .bind (.of_reads fun r => ?_) fun heap => ?_
  · exact wp_mono (heapOf_spec fun _ _ _ _ => trivial) fun _ _ hs => hs.1
  refine .bind (.forIn fun _ _ _ => .bind wired_addFormalGlobal fun _ => .pure _) fun _ => ?_
  refine .bind (.forIn fun _ _ _ => .bind wired_addFormal fun _ => .pure _) fun _ => ?_
  exact .ite (fun _ => .bind (.report _) fun _ => hp g) fun _ => .pure _

theorem wired_propagateWithin (depth : Nat) (g : GraphId) :
    Maintains Fault.Any (WiredFrom e r₀ B G) (propagateWithin e.program depth g) := by
  induction depth generalizing g with
  | zero => exact .throw trivial
  | succ depth ih =>
    refine .bind (.graph trivial) fun y => .bind (.forIn fun c _ _ => ?_) fun _ => .pure _
    refine .bind (.node trivial) fun x => ?_
    -- a caller that belongs to no graph is passed over
    split
    · exact .bind wired_bindActuals fun _ => .bind (wired_absorbWith ih) fun _ => .pure _
    · exact .pure _

theorem wired_propagate : Maintains Fault.Any (WiredFrom e r₀ B G) (propagate e.program g) :=
  .bind .registry fun _ => wired_propagateWithin _ g

theorem wired_absorb : Maintains Fault.Any (WiredFrom e r₀ B G) (absorb e.program g h) :=
  wired_absorbWith fun _ => wired_propagate

theorem wired_discoverGlobal :
    Maintains Fault.Any (WiredFrom e r₀ B G) (discoverGlobal e.program g v) :=
  .bind wired_addFormalGlobal fun _ =>
    .ite (fun _ => .bind (.report _) fun _ => wired_propagate) fun _ => .pure _

theorem wired_discoverHeap :
    Maintains Fault.Any (WiredFrom e r₀ B G) (discoverHeap e.program g v) :=
  .bind wired_addFormal fun _ =>
    .ite (fun _ => .bind (.report _) fun _ => wired_propagate) fun _ => .pure _

theorem wired_visitAddress :
    Maintains Fault.Any (WiredFrom e r₀ B G) (visitAddress e.program g v) := by
  refine .bind (.ask fun _ _ => trivial) fun base => .bind (.ask fun _ _ => trivial) fun _ => ?_
  exact .ite (fun _ => wired_discoverGlobal) fun _ => .pure _

/-! ## Links -/

/-- Entries in a graph that nodes and parameters are not about. -/
theorem wired_updateGraph {f : Graph → Graph} (hs : ∀ y : Graph, y.SameNodes (f y))
    (hg : ∀ y : Graph, y.Grows (f y)) (hf : ∀ y, (f y).formals = y.formals) :
    Maintains Fault.Any (WiredFrom e r₀ B G) (updateGraph g f) :=
  maintains_wired fun _ hr => wp_last (wp_updateGraph fun y hy => wp_pure
    (hr.dress hy (hs y) (hg y) (hf y)))

/-- A call is recorded in the unit of its block. -/
theorem wired_site {b : BlockKey} : Maintains Fault.Any (WiredFrom e r₀ B G)
    (updateUnit g b fun u => { u with callSites := u.callSites.insert c }) := by
  refine maintains_wired fun r hr => wp_last (wp_updateUnit fun y u hy _ => wp_pure ?_)
  have hs : y.SameNodes (y.modifyUnit b fun u => { u with callSites := u.callSites.insert c }) :=
    .modifyUnit y b fun _ => rfl
  have hcore := Graph.SameCore.modifyUnit y b fun u =>
    { u with callSites := u.callSites.insert c }
  exact hr.dress hy hs hcore.grows hcore.formals

/-- An edge from a live node that is due. -/
theorem addControl_wired {a b : NodeId} (hr : r.Wired e.program e.settings.phiControl B G)
    (h : r.Attached e.program a b ∨ ∃ g ∉ B, r.Arranged e.program e.settings.phiControl g a b) :
    wp Fault.Genuine (addControl a b) (fun _ s => WiredFrom e r B G s) r :=
  wp_last (wp_addControl fun _ _ hx _ => wp_pure (hr.control hx h))

/-- Once a linked call may have its edge to the entry, all that follows is due. -/
theorem wired_settleLink {s : Registry} {b : BlockId} (hr : WiredFrom e r₀ B G r)
    (hedge : wp Fault.Genuine (entry g >>= addControl c) (fun _ t => WiredFrom e r B G t) s) :
    wp Fault.Any (settleLink e.program b c h g) (fun _ t => WiredFrom e r₀ B G t) s := by
  unfold settleLink
  rw [← bind_assoc]
  refine wp_bind (wp_fault hedge fun _ _ => trivial) fun _ t ht => ?_
  have hrest : Maintains Fault.Any (WiredFrom e r₀ B G) (do
      updateUnit h (.block b) fun u => { u with callSites := u.callSites.insert c }
      absorb e.program h g
      bindActuals e.program c g) :=
    .bind wired_site fun _ => .bind wired_absorb fun _ => wired_bindActuals
  exact hrest t ⟨hr.1.trans ht.1, ht.2⟩

theorem wired_checkCall : Maintains Fault.Any (WiredFrom e r₀ B G) (checkCall e.program c) :=
  .of_reads fun _ => wp_fault (wp_last (wp_checkCall (wp_pure rfl))) fun _ _ => trivial

/-- Linking a call: the edge to the entry comes with the link. -/
theorem wired_linkCall {b : BlockId} {f : FunctionId}
    (hreq : ∀ f, Maintains Fault.Any (WiredFrom e r₀ B G) (request f)) :
    Maintains Fault.Any (WiredFrom e r₀ B G) (linkCall request e.program b c f) := by
  refine .bind wired_checkCall fun _ => .bind wired_owner fun h => .bind (hreq f) fun g r hr => ?_
  refine wp_bind (wp_fault addLink_spec fun _ _ => trivial) ?_
  intro isNew s hpost
  obtain ⟨hold, hnew⟩ := hpost
  cases isNew with
  | false =>
    -- the link was there, and so was the edge
    obtain ⟨rfl, hlink⟩ := hold rfl
    exact wired_settleLink hr
      (wp_entry fun y en hy hen => addControl_wired hr.2 (Or.inl (.call hlink hy hen)))
  | true =>
    obtain ⟨rfl, _, ⟨y, hy⟩, x, hx⟩ := hnew rfl
    refine wp_ask (fun _ _ => wp_report (wired_settleLink hr ?_)) fun _ _ => trivial
    refine wp_entry fun y' en hy' hen => wp_last (wp_addControl fun _ _ _ _ => wp_pure ?_)
    rw [graph?_link, if_pos rfl, hy] at hy'
    cases hy'
    exact hr.2.link hx hy hen

theorem wired_visitDirectCall {b : BlockId} {f : FunctionId}
    (hreq : ∀ f, Maintains Fault.Any (WiredFrom e r₀ B G) (request f)) :
    Maintains Fault.Any (WiredFrom e r₀ B G) (visitDirectCall request e g b c v f) := by
  refine .bind (.ask fun _ _ => trivial) fun x => ?_
  refine .when (fun _ => maintains_wired fun r hr => ?_) ?_
  · -- the gathered calls are none of what nodes and graphs show
    have hrefl := Grows.refl r
    exact wp_last (wp_modifyRegistry (wp_pure (hr.of_edges ⟨hrefl.node, hrefl.graph, hrefl.lookup?⟩
      (fun _ => rfl) rfl (fun n x hx => ⟨x, hx, rfl, rfl⟩) fun _ _ => Or.inl)))
  refine .when (fun _ => wired_linkCall hreq) ?_
  exact .ite (fun _ => .bind (.report _) fun _ => wired_discoverHeap) fun _ => .pure _

theorem wired_visitPointee {b : BlockId} {args : List ValueId} {p : Pointee}
    (hreq : ∀ f, Maintains Fault.Any (WiredFrom e r₀ B G) (request f)) :
    Maintains Fault.Any (WiredFrom e r₀ B G)
      (visitPointee request e.program b c v args p) := by
  refine .ite (fun _ => .pure _) fun _ => ?_
  refine .bind (.ask fun _ _ => trivial) fun t => .bind (.ask fun _ _ => trivial) fun f? => ?_
  split
  · refine .bind (.ask fun _ _ => trivial) fun x => ?_
    -- whether the call fits is asked only where there is a body
    refine .ite (fun _ => .bind (.ask fun _ _ => trivial) fun fits => ?_)
      fun _ => .bind (.pure _) fun fits => ?_
    all_goals
      refine .ite (c := fits = true) (fun _ => ?_) fun _ => ?_
      · exact .bind (wired_linkCall hreq) fun _ => .pure _
      · exact .bind (.report _) fun _ => .pure _
  · refine .bind (.ask fun _ _ => trivial) fun x => ?_
    exact .ite (fun _ => .bind (.throw trivial) fun _ => .pure _) fun _ => .pure _

theorem wired_visitIndirectCall {b : BlockId} {callee : ValueId} {args : List ValueId}
    (hreq : ∀ f, Maintains Fault.Any (WiredFrom e r₀ B G) (request f)) :
    Maintains Fault.Any (WiredFrom e r₀ B G)
      (visitIndirectCall request e g b c v callee args) := by
  unfold visitIndirectCall
  cases e.pointsTo? with
  | none => exact .report _
  | some pointsTo =>
    refine .bind (.forIn fun p _ _ => .bind (wired_visitPointee hreq) fun _ => .pure _) fun _ => ?_
    exact .ite (fun _ => .report _) fun _ => .pure _

/-- **Calls.** -/
theorem wired_visitCall {b : BlockId} {callee : ValueId} {args : List ValueId}
    (hreq : ∀ f, Maintains Fault.Any (WiredFrom e r₀ B G) (request f)) :
    Maintains Fault.Any (WiredFrom e r₀ B G) (visitCall request e g b c v callee args) := by
  have hs : ∀ y : Graph, y.SameNodes { y with callNodes := y.callNodes.insert c } :=
    fun _ => .of_units rfl rfl rfl rfl rfl rfl rfl
  refine .bind (wired_updateGraph hs (fun y => .of_eq rfl rfl rfl rfl fun d hd => ?_)
    fun _ => rfl) fun _ => ?_
  · exact OrderedSet.mem_insert.2 (Or.inl hd)
  refine .bind (.ask fun _ _ => trivial) fun t => .bind (.ask fun _ _ => trivial) fun f? => ?_
  cases f? with
  | some f => exact wired_visitDirectCall hreq
  | none => exact wired_visitIndirectCall hreq

end Work

end Sdg
