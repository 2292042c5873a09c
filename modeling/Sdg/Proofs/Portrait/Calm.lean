import Sdg.Build.Calls
import Sdg.Proofs.Portrait.Drawn
import Sdg.Proofs.Registry.Pieces

/-!
# Work that leaves layouts alone

Parameters, data edges, links and references are no part of a layout. So most of what goes on while
a body is built leaves all layouts as they are, which is shown here piece by piece. What a call may
do besides is to have other graphs built, as `request` does it: if that takes a course, so does the
call.

Main results:

* `Work.calm_absorb`, `Work.calm_bindActuals`, `Work.calm_discoverGlobal` — parameters;
* `Work.course_linkCall`, `Work.course_visitPointee` — calls.
-/

namespace Sdg

namespace Work

open Registry

variable {e : Setup} {m : Module} {r₀ : Registry} {g h caller : GraphId} {a b c n : NodeId}
  {v : ValueId} {key : NodeKey} {k : BlockKey} {block : BlockId} {f : FunctionId}

/-! ## Pieces -/

theorem calm_newNode (x : Node) : Maintains Fault.Any r₀.Calm (newNode x) := fun r hr =>
  wp_last (wp_newNode (wp_pure (hr.trans (.pushNode r x))))

theorem calm_updateNode {u : Node → Node} (hu : ∀ x : Node, x.Same (u x)) :
    Maintains Fault.Any r₀.Calm (updateNode n u) := by
  intro r hr
  unfold updateNode putNode
  refine wp_node (fun x hx => wp_last (wp_modifyRegistry (wp_pure ?_))) fun _ => trivial
  rw [reviseNode_eq hx u]
  exact hr.trans (.reviseNode hu)

theorem calm_updateGraph {u : Graph → Graph} (hu : ∀ y, (u y).layout = y.layout) :
    Maintains Fault.Any r₀.Calm (updateGraph g u) := by
  intro r hr
  unfold updateGraph putGraph
  refine wp_graph (fun y hy => wp_last (wp_modifyRegistry (wp_pure ?_))) fun _ => trivial
  rw [reviseGraph_eq hy u]
  exact hr.trans (.reviseGraph hu)

theorem calm_updateUnit {u : BlockUnit → BlockUnit} (hu : ∀ w, (u w).bare = w.bare) :
    Maintains Fault.Any r₀.Calm (updateUnit g k u) := by
  intro r hr
  unfold updateUnit putGraph
  refine wp_graph (fun y hy => wp_require (fun _ _ => ?_) fun _ => trivial) fun _ => trivial
  refine wp_last (wp_modifyRegistry (wp_pure ?_))
  rw [reviseGraph_eq hy fun y => y.modifyUnit k u]
  exact hr.trans (.reviseGraph fun y => Graph.layout_modifyUnit hu y k)

theorem calm_addControl : Maintains Fault.Any r₀.Calm (addControl a b) :=
  .bind (calm_updateNode fun _ => ⟨rfl, rfl, rfl⟩) fun _ =>
    calm_updateNode fun _ => ⟨rfl, rfl, rfl⟩

theorem calm_addData : Maintains Fault.Any r₀.Calm (addData a b) :=
  .bind (calm_updateNode fun _ => ⟨rfl, rfl, rfl⟩) fun _ =>
    calm_updateNode fun _ => ⟨rfl, rfl, rfl⟩

theorem calm_entry : Maintains Fault.Any r₀.Calm (entry g) :=
  .bind (.graph trivial) fun _ => .require fun _ => trivial

theorem calm_owner : Maintains Fault.Any r₀.Calm (owner c) :=
  .bind (.node trivial) fun _ => .require fun _ => trivial

theorem calm_addPair : Maintains Fault.Any r₀.Calm (addPair g key c) := by
  unfold addPair
  rw [ownedNode_eq]
  exact .bind (calm_newNode _) fun _ => .bind (calm_newNode _) fun _ =>
    .bind calm_addControl fun _ => .bind calm_addControl fun _ => .pure _

/-! ## Parameters -/

theorem calm_newFormalPair : Maintains Fault.Any r₀.Calm (newFormalPair g key) :=
  .bind calm_entry fun _ => calm_addPair

theorem calm_addFormal : Maintains Fault.Any r₀.Calm (addFormal g v) :=
  .bind (.graph trivial) fun _ => .ite (fun _ => .pure _) fun _ =>
    .bind calm_newFormalPair fun _ => .bind (calm_updateGraph fun _ => rfl) fun _ => .pure _

theorem calm_addFormalGlobal : Maintains Fault.Any r₀.Calm (addFormalGlobal g v) :=
  .bind (.graph trivial) fun _ => .ite (fun _ => .pure _) fun _ =>
    .bind calm_newFormalPair fun _ => .bind (calm_updateGraph fun _ => rfl) fun _ => .pure _

theorem calm_setVariadic {q : ParameterPair} : Maintains Fault.Any r₀.Calm (setVariadic g q) := by
  intro r hr
  unfold setVariadic putGraph
  refine wp_graph (fun y hy => wp_require (fun p _ => ?_) fun _ => trivial) fun _ => trivial
  refine wp_last (wp_modifyRegistry (wp_pure ?_))
  rw [reviseGraph_eq hy fun y => { y with formals := p }]
  exact hr.trans (.reviseGraph fun _ => rfl)

theorem calm_addDeclaredFormals {x : Function} :
    Maintains Fault.Any r₀.Calm (addDeclaredFormals g f x) := by
  refine .bind (.forIn fun _ _ _ => .bind calm_addFormal fun _ => .pure _) fun _ => ?_
  exact .ite (fun _ => .bind calm_newFormalPair fun _ => .bind calm_addData fun _ =>
    calm_setVariadic) fun _ => .pure _

theorem calm_actuals : Maintains Fault.Any r₀.Calm (actuals c) :=
  .bind (.node trivial) fun _ => .pure _

theorem calm_actualPair {isGlobal : Bool} :
    Maintains Fault.Any r₀.Calm (actualPair c caller v isGlobal) := by
  refine .bind calm_actuals fun ps => ?_
  cases ps.find? v with
  | some q => exact .pure q
  | none =>
    exact .bind calm_addPair fun _ => .bind calm_actuals fun _ =>
      .bind (calm_updateNode fun _ => ⟨rfl, rfl, rfl⟩) fun _ => .pure _

theorem calm_bind {q : ParameterPair} {isGlobal : Bool} :
    Maintains Fault.Any r₀.Calm (Work.bind c caller v q isGlobal) :=
  .bind calm_actualPair fun _ => .bind calm_addData fun _ => calm_addData

theorem calm_arguments : Maintains Fault.Any r₀.Calm (arguments m c) := by
  refine .bind (.node trivial) fun x => .bind (.ask fun _ _ => trivial) fun op? => ?_
  split
  · exact .pure _
  · exact .throw trivial

theorem calm_bindActuals : Maintains Fault.Any r₀.Calm (bindActuals m c h) :=
  .bind calm_owner fun _ => .bind calm_arguments fun _ => .bind (.graph trivial) fun _ =>
    .bind (.ask fun _ _ => trivial) fun _ =>
      .bind (.forIn fun _ _ _ => .bind calm_bind fun _ => .pure _) fun _ => .pure _

/-! ## Propagation -/

theorem calm_isArgument : Maintains Fault.Any r₀.Calm (isArgument m v) :=
  .bind (.ask fun _ _ => trivial) fun _ => .pure _

theorem calm_absorbWith {propagate : GraphId → Work Unit}
    (hp : ∀ g, Maintains Fault.Any r₀.Calm (propagate g)) :
    Maintains Fault.Any r₀.Calm (absorbWith propagate m g h) := by
  refine .bind (.graph trivial) fun _ => .bind (.filterM fun _ _ => ?_) fun _ => ?_
  · exact .bind calm_isArgument fun _ => .pure _
  · refine .bind (.forIn fun _ _ _ => .bind calm_addFormalGlobal fun _ => .pure _) fun _ =>
      .bind (.forIn fun _ _ _ => .bind calm_addFormal fun _ => .pure _) fun _ => ?_
    exact .ite (fun _ => .bind (.report _) fun _ => hp g) fun _ => .pure _

theorem calm_propagateWithin (depth : Nat) :
    ∀ g, Maintains Fault.Any r₀.Calm (propagateWithin m depth g) := by
  induction depth with
  | zero => exact fun _ => .throw trivial
  | succ depth ih =>
    intro g
    refine .bind (.graph trivial) fun _ => .bind (.forIn fun _ _ _ => ?_) fun _ => .pure _
    refine .bind (.node trivial) fun x => ?_
    -- the call of a graph brings its caller up to date
    cases x.graph? with
    | none => exact .pure _
    | some caller =>
      exact .bind calm_bindActuals fun _ => .bind (calm_absorbWith ih) fun _ => .pure _

theorem calm_propagate : Maintains Fault.Any r₀.Calm (propagate m g) :=
  .bind .registry fun _ => calm_propagateWithin _ g

theorem calm_absorb : Maintains Fault.Any r₀.Calm (absorb m g h) :=
  calm_absorbWith fun _ => calm_propagate

theorem calm_discoverGlobal : Maintains Fault.Any r₀.Calm (discoverGlobal m g v) :=
  .bind calm_addFormalGlobal fun _ => .ite (fun _ => .bind (.report _) fun _ => calm_propagate)
    fun _ => .pure _

theorem calm_discoverHeap : Maintains Fault.Any r₀.Calm (discoverHeap m g v) :=
  .bind calm_addFormal fun _ => .ite (fun _ => .bind (.report _) fun _ => calm_propagate)
    fun _ => .pure _

/-! ## Calls -/

theorem calm_checkCall : Maintains Fault.Any r₀.Calm (checkCall m c) :=
  .of_reads fun _ => wp_fault (wp_last (wp_checkCall (wp_pure rfl))) fun _ _ => trivial

theorem calm_addLink : Maintains Fault.Any r₀.Calm (addLink c h) := by
  intro r hr
  unfold addLink
  refine wp_node (fun x hx => ?_) fun _ => trivial
  split
  · exact wp_pure hr
  · unfold putNode
    refine wp_modifyRegistry ?_
    rw [reviseNode_eq hx fun x => { x with callees := x.callees.insert h }]
    have hlink : Maintains Fault.Any r₀.Calm (do
        updateGraph h fun y =>
          { y with callers := y.callers.insert c, refcount := y.refcount + 1 }
        return true) := .bind (calm_updateGraph fun _ => rfl) fun _ => .pure _
    exact hlink _ (hr.trans (.reviseNode fun _ => ⟨rfl, rfl, rfl⟩))

/-- Work that leaves all layouts alone takes a course. -/
theorem course_of_calm {α : Type} {w : Work α} {X : Set GraphId}
    (hw : ∀ r : Registry, Maintains Fault.Any r.Calm w) :
    Maintains Fault.Any (Course e X r₀) w := by
  intro r hr
  refine wp_mono (hw r r (.refl r)) fun _ s hs => ?_
  exact hr.trans hs.course

theorem calm_settleLink : Maintains Fault.Any r₀.Calm (settleLink m block c caller h) := by
  refine .bind calm_entry fun _ => .bind calm_addControl fun _ => ?_
  exact .bind (calm_updateUnit fun _ => rfl) fun _ => .bind calm_absorb fun _ => calm_bindActuals

section

variable {request : FunctionId → Work GraphId}
  (hreq : ∀ r₀ f, Maintains Fault.Any (Course e ∅ r₀) (request f))

include hreq

theorem course_linkCall : Maintains Fault.Any (Course e ∅ r₀) (linkCall request m block c f) := by
  refine .bind (course_of_calm fun _ => calm_checkCall) fun _ => ?_
  refine .bind (course_of_calm fun _ => calm_owner) fun caller => .bind (hreq r₀ f) fun h =>
    .bind (course_of_calm fun _ => calm_addLink) fun _ => ?_
  have hrest : Maintains Fault.Any (Course e ∅ r₀) (settleLink m block c caller h) :=
    course_of_calm fun _ => calm_settleLink
  exact .ite (fun _ => .bind (.ask fun _ _ => trivial) fun _ => .bind (.report _) fun _ => hrest)
    fun _ => hrest

theorem course_visitDirectCall :
    Maintains Fault.Any (Course e ∅ r₀) (visitDirectCall request e g block c v f) := by
  refine .bind (.ask fun _ _ => trivial) fun x => ?_
  refine .when (fun _ => fun r hr => ?_) (.when (fun _ => course_linkCall hreq) ?_)
  · exact wp_last (wp_modifyRegistry (wp_pure (hr.trans (Calm.gather r _).course)))
  · exact .ite (fun _ => .bind (.report _) fun _ => course_of_calm fun _ => calm_discoverHeap)
      fun _ => .pure _

theorem course_visitPointee {args : List ValueId} {p : Pointee} :
    Maintains Fault.Any (Course e ∅ r₀) (visitPointee request m block c v args p) := by
  refine .ite (fun _ => .pure _) fun _ => ?_
  refine .bind (.ask fun _ _ => trivial) fun t => .bind (.ask fun _ _ => trivial) fun f? => ?_
  cases f? with
  | some f =>
    refine .bind (.ask fun _ _ => trivial) fun x => ?_
    -- whether the call fits is asked only where there is a body
    refine .ite (fun _ => .bind (.ask fun _ _ => trivial) fun fits => ?_)
      fun _ => .bind (.pure _) fun fits => ?_
    all_goals
      refine .ite (c := fits = true) (fun _ => ?_) fun _ => ?_
      · exact .bind (course_linkCall hreq) fun _ => .pure _
      · exact .bind (.report _) fun _ => .pure _
  | none =>
    refine .bind (.ask fun _ _ => trivial) fun x => ?_
    exact .ite (fun _ => .bind (.throw trivial) fun _ => .pure _) fun _ => .pure _

theorem course_visitIndirectCall {callee : ValueId} {args : List ValueId} :
    Maintains Fault.Any (Course e ∅ r₀) (visitIndirectCall request e g block c v callee args) := by
  unfold visitIndirectCall
  cases e.pointsTo? with
  | none => exact .report _
  | some pointsTo =>
    refine .bind (.forIn fun p _ _ => .bind (course_visitPointee hreq) fun _ => .pure _) fun _ => ?_
    exact .ite (fun _ => .report _) fun _ => .pure _

/-- **Calls.** What a call does after it was listed. -/
theorem course_resolve {callee : ValueId} {args : List ValueId} :
    Maintains Fault.Any (Course e ∅ r₀) (do
      match ← ask (e.program.asFunction? (← ask (e.program.stripCasts callee))) with
      | some f => visitDirectCall request e g block c v f
      | none => visitIndirectCall request e g block c v callee args) := by
  refine .bind (.ask fun _ _ => trivial) fun t => .bind (.ask fun _ _ => trivial) fun f? => ?_
  cases f? with
  | some f => exact course_visitDirectCall hreq
  | none => exact course_visitIndirectCall hreq

end

end Work

end Sdg
