import Sdg.Build.Calls
import Sdg.Proofs.Registry.Change
import Sdg.Proofs.Rules

/-!
# Pieces of building

The rules for the pieces of work that building is made of, each in terms of the elementary changes.
Building may end in any fault but the one that says that a recursion was cut off, so the rules here
fix `Fault.Genuine` and ask for nothing about faults, but for the two that cannot fail.

A new parameter is where work and changes differ in order: the work makes two nodes, draws the
edges and enters the pair last, and `giveFormal` and `giveActual` enter the pair at once. Edges and
entries are in different places of the registry, so both ways lead to the same.
-/

namespace Sdg

namespace Registry

variable {r : Registry} {g : GraphId} {n : NodeId}

theorem reviseNode_eq {x : Node} (h : r.node? n = some x) (f : Node → Node) :
    { r with nodes := r.nodes.set n.index (f x) } = r.reviseNode n f := by
  rw [reviseNode, h]

theorem reviseGraph_eq {y : Graph} (h : r.graph? g = some y) (f : Graph → Graph) :
    { r with graphs := r.graphs.set g.index (f y) } = r.reviseGraph g f := by
  rw [reviseGraph, h]

theorem reviseNode_congr {f f' : Node → Node} (h : ∀ x, r.node? n = some x → f x = f' x) :
    r.reviseNode n f = r.reviseNode n f' := by
  unfold reviseNode
  cases hx : r.node? n with
  | none => rfl
  | some x => simp only [h x hx]

theorem reviseGraph_eq_self {f : Graph → Graph} (h : ∀ y, r.graph? g = some y → f y = y) :
    r.reviseGraph g f = r := by
  refine ext_view (fun n => by simp) (fun k => ?_) (by simp) (by simp) (by simp) (by simp)
    (by simp)
  rw [graph?_reviseGraph]
  split
  · rename_i hk
    subst hk
    cases hy : r.graph? k with
    | none => rfl
    | some y => rw [Option.map_some, h y hy]
  · rfl

theorem reviseGraph_reviseGraph (r : Registry) (g : GraphId) (f f' : Graph → Graph) :
    (r.reviseGraph g f).reviseGraph g f' = r.reviseGraph g fun y => f' (f y) := by
  refine ext_view (fun n => by simp) (fun h => ?_) (by simp) (by simp) (by simp) (by simp)
    (by simp)
  by_cases hh : h = g
  · subst hh
    cases hy : r.graph? h <;> simp [hy]
  · simp [hh]

/-! ## Edges and entries commute -/

@[simp] theorem pool_control (r : Registry) (a b : NodeId) : (r.control a b).pool = r.pool := by
  simp [control]

@[simp] theorem gathered_control (r : Registry) (a b : NodeId) :
    (r.control a b).gathered = r.gathered := by
  simp [control]

@[simp] theorem nextNode_control (r : Registry) (a b : NodeId) :
    (r.control a b).nextNode = r.nextNode := by
  simp [control]

@[simp] theorem nextGraph_control (r : Registry) (a b : NodeId) :
    (r.control a b).nextGraph = r.nextGraph := by
  simp [control]

@[simp] theorem pool_feed (r : Registry) (a b : NodeId) : (r.feed a b).pool = r.pool := by
  simp [feed]

@[simp] theorem gathered_feed (r : Registry) (a b : NodeId) :
    (r.feed a b).gathered = r.gathered := by
  simp [feed]

@[simp] theorem nextNode_feed (r : Registry) (a b : NodeId) :
    (r.feed a b).nextNode = r.nextNode := by
  simp [feed]

@[simp] theorem nextGraph_feed (r : Registry) (a b : NodeId) :
    (r.feed a b).nextGraph = r.nextGraph := by
  simp [feed]

theorem pushNode_reviseGraph (r : Registry) (g : GraphId) (f : Graph → Graph) (x : Node) :
    (r.reviseGraph g f).pushNode x = (r.pushNode x).reviseGraph g f := by
  unfold reviseGraph
  rw [graph?_pushNode]
  cases r.graph? g <;> rfl

theorem reviseGraph_control (r : Registry) (a b : NodeId) (g : GraphId) (f : Graph → Graph) :
    (r.control a b).reviseGraph g f = (r.reviseGraph g f).control a b := by
  apply ext_view <;> simp [node?_control]

theorem reviseGraph_feed (r : Registry) (a b : NodeId) (g : GraphId) (f : Graph → Graph) :
    (r.feed a b).reviseGraph g f = (r.reviseGraph g f).feed a b := by
  apply ext_view <;> simp [node?_feed]

/-- Edges do not get in the way of the actual parameters of a node. -/
theorem reviseNode_control (r : Registry) (a b c : NodeId) (ps : Option Parameters) :
    (r.control a b).reviseNode c (fun x => { x with actuals? := ps }) =
      (r.reviseNode c fun x => { x with actuals? := ps }).control a b := by
  apply ext_view
  · intro n
    rw [node?_reviseNode, node?_control, node?_control, node?_reviseNode]
    -- edges and actual parameters are different parts of a node
    by_cases hn : n = c <;> cases r.node? n <;> simp [hn]
  all_goals simp

end Registry

namespace Work

open Registry

variable {α β : Type} {Q : β → Registry → Prop} {r : Registry} {g : GraphId} {n : NodeId}

/-! ## Nodes -/

theorem wp_updateNode {f : Node → Node} {k : Unit → Work β}
    (h : ∀ x, r.node? n = some x → wp Fault.Genuine (k ()) Q (r.reviseNode n f)) :
    wp Fault.Genuine (updateNode n f >>= k) Q r := by
  unfold updateNode
  rw [bind_assoc]
  refine wp_node (fun x hx => ?_) fun _ => nofun
  unfold putNode
  refine wp_modifyRegistry ?_
  rw [reviseNode_eq hx f]
  exact h x hx

theorem wp_newNode {bad : Fault → Prop} {x : Node} {k : NodeId → Work β}
    (h : wp bad (k r.nextNode) Q (r.pushNode x)) : wp bad (newNode x >>= k) Q r := by
  unfold newNode
  rw [bind_assoc]
  refine wp_registry ?_
  rw [bind_assoc]
  exact wp_modifyRegistry h

theorem wp_addControl {a b : NodeId} {k : Unit → Work β}
    (h : ∀ x y, r.node? a = some x → r.node? b = some y →
      wp Fault.Genuine (k ()) Q (r.control a b)) :
    wp Fault.Genuine (addControl a b >>= k) Q r := by
  unfold addControl
  rw [bind_assoc]
  refine wp_updateNode fun x hx => wp_updateNode fun _ hb => ?_
  obtain ⟨y, hy⟩ := exists_node_of_reviseNode hb
  exact h x y hx hy

theorem wp_addData {a b : NodeId} {k : Unit → Work β}
    (h : ∀ x y, r.node? a = some x → r.node? b = some y →
      wp Fault.Genuine (k ()) Q (r.feed a b)) :
    wp Fault.Genuine (addData a b >>= k) Q r := by
  unfold addData
  rw [bind_assoc]
  refine wp_updateNode fun x hx => wp_updateNode fun _ hb => ?_
  obtain ⟨y, hy⟩ := exists_node_of_reviseNode hb
  exact h x y hx hy

/-- A pair is two new nodes, and edges come to them after that. -/
theorem wp_pushPair {bad : Fault → Prop} {key : NodeKey} {c : NodeId} {k : ParameterPair → Work β}
    (h : wp bad (addControl c r.nextPair.input >>= fun _ => addControl c r.nextPair.output >>=
      fun _ => k r.nextPair) Q (r.pushPair g key)) : wp bad (addPair g key c >>= k) Q r := by
  unfold addPair
  rw [ownedNode_eq, bind_assoc]
  refine wp_newNode ?_
  rw [bind_assoc]
  refine wp_newNode ?_
  rw [nextNode_pushNode]
  simp only [bind_assoc, pure_bind]
  exact h

/-- Two new nodes with the edges that come to them from `c`. -/
theorem wp_addPair {key : NodeKey} {c : NodeId} {k : ParameterPair → Work β}
    (h : ∀ x, (r.pushPair g key).node? c = some x → wp Fault.Genuine (k r.nextPair) Q
      (((r.pushPair g key).control c r.nextPair.input).control c r.nextPair.output)) :
    wp Fault.Genuine (addPair g key c >>= k) Q r :=
  wp_pushPair (wp_addControl fun x _ hx _ => wp_addControl fun _ _ _ _ => h x hx)

theorem wp_owner {c : NodeId} {k : GraphId → Work β}
    (h : ∀ h, r.OwnedBy c h → wp Fault.Genuine (k h) Q r) :
    wp Fault.Genuine (owner c >>= k) Q r := by
  unfold owner
  rw [bind_assoc]
  refine wp_node (fun x hx => ?_) fun _ => nofun
  exact wp_require (fun h' hh => h h' ⟨x, hx, hh⟩) fun _ => nofun

/-! ## Graphs -/

theorem wp_updateGraph {f : Graph → Graph} {k : Unit → Work β}
    (h : ∀ y, r.graph? g = some y → wp Fault.Genuine (k ()) Q (r.reviseGraph g f)) :
    wp Fault.Genuine (updateGraph g f >>= k) Q r := by
  unfold updateGraph
  rw [bind_assoc]
  refine wp_graph (fun y hy => ?_) fun _ => nofun
  unfold putGraph
  refine wp_modifyRegistry ?_
  rw [reviseGraph_eq hy f]
  exact h y hy

/-- A function without a graph can be given one. -/
theorem wp_newGraph {bad : Fault → Prop} {f : FunctionId} {k : GraphId → Work β}
    (hf : r.lookup? f = none) (h : wp bad (k r.nextGraph) Q (r.pushGraph (.fresh f))) :
    wp bad (newGraph f >>= k) Q r := by
  have hnew : r.byFunction.contains f = false := by
    rw [OrderedMap.contains_eq_false_iff]
    exact hf
  unfold newGraph
  rw [bind_assoc]
  refine wp_registry ?_
  simp only [hnew, Bool.false_eq_true, if_false]
  rw [bind_assoc]
  exact wp_modifyRegistry h

theorem wp_entry {k : NodeId → Work β}
    (h : ∀ y n, r.graph? g = some y → y.entryNode? = some n → wp Fault.Genuine (k n) Q r) :
    wp Fault.Genuine (entry g >>= k) Q r := by
  unfold entry
  rw [bind_assoc]
  exact wp_graph (fun y hy => wp_require (fun n hn => h y n hy hn) fun _ => nofun) fun _ => nofun

/-! ## Units -/

/-- A change of a unit, which is there. -/
theorem wp_updateUnit {key : BlockKey} {f : BlockUnit → BlockUnit} {k : Unit → Work β}
    (h : ∀ y u, r.graph? g = some y → y.unit? key = some u →
      wp Fault.Genuine (k ()) Q (r.reviseGraph g fun y => y.modifyUnit key f)) :
    wp Fault.Genuine (updateUnit g key f >>= k) Q r := by
  unfold updateUnit
  rw [bind_assoc]
  refine wp_graph (fun y hy => ?_) fun _ => nofun
  rw [bind_assoc]
  refine wp_require (fun u hu => ?_) fun _ => nofun
  unfold putGraph
  refine wp_modifyRegistry ?_
  rw [reviseGraph_eq hy fun y => y.modifyUnit key f]
  exact h y u hy hu

/-- A change of a unit and then of another: both are there at first. -/
theorem wp_updateUnits {a b : BlockKey} {f f' : BlockUnit → BlockUnit} {k : Unit → Work β}
    (h : ∀ y u w, r.graph? g = some y → y.unit? a = some u → y.unit? b = some w →
      wp Fault.Genuine (k ()) Q
        (r.reviseGraph g fun y => (y.modifyUnit a f).modifyUnit b f')) :
    wp Fault.Genuine (updateUnit g a f >>= fun _ => updateUnit g b f' >>= k) Q r := by
  refine wp_updateUnit fun y u hy hu => wp_updateUnit fun y' w hy' hw => ?_
  rw [graph?_reviseGraph, if_pos rfl, hy] at hy'
  cases hy'
  obtain ⟨w', hw', _⟩ := Graph.exists_unit_of_modifyUnit hw
  rw [reviseGraph_reviseGraph]
  exact h y u w' hy hu hw'

theorem wp_addUnitEdge {a b : BlockKey} {label : Nat} {k : Unit → Work β}
    (h : ∀ y u w, r.graph? g = some y → y.unit? a = some u → y.unit? b = some w →
      wp Fault.Genuine (k ()) Q (r.reviseGraph g fun y => y.lead a b label)) :
    wp Fault.Genuine (addUnitEdge g a b label >>= k) Q r := by
  unfold addUnitEdge
  rw [bind_assoc]
  exact wp_updateUnits h

theorem wp_addUnitControl {a b : BlockKey} {k : Unit → Work β}
    (h : ∀ y u w, r.graph? g = some y → y.unit? a = some u → y.unit? b = some w →
      wp Fault.Genuine (k ()) Q (r.reviseGraph g fun y => y.govern a b)) :
    wp Fault.Genuine (addUnitControl g a b >>= k) Q r := by
  unfold addUnitControl
  rw [bind_assoc]
  exact wp_updateUnits h

/-! ## Parameters -/

/-- A new formal parameter: the pair enters the graph last, but might as well have been first. -/
theorem wp_newFormalPair {key : NodeKey} {s : Slot} {k : ParameterPair → Work β}
    (h : ∀ y en x, r.graph? g = some y → y.entryNode? = some en →
      (r.giveFormal g key s).node? en = some x → wp Fault.Genuine (k r.nextPair) Q
        (((r.giveFormal g key s).control en r.nextPair.input).control en r.nextPair.output)) :
    wp Fault.Genuine (newFormalPair g key >>= fun q =>
      updateGraph g (fun y => { y with formals := y.formals.put s q }) >>= fun _ => k q) Q r := by
  unfold newFormalPair
  rw [bind_assoc]
  refine wp_entry fun y en hy hentry => ?_
  refine wp_addPair fun x hx => ?_
  refine wp_updateGraph ?_
  intro _ _
  -- the pair may as well have been entered before the edges were drawn
  rw [reviseGraph_control, reviseGraph_control]
  have hx' : (r.giveFormal g key s).node? en = some x := by
    rw [giveFormal, node?_reviseGraph]
    exact hx
  exact h y en x hy hentry hx'

/-- Makes `v` a parameter of `g` by a pair in the slot `s`; answers whether it was none before. This
is `addFormal` and `addFormalGlobal` in the two slots for `v`. -/
def addSlot (g : GraphId) (s : Slot) (v : ValueId) : Work Bool := do
  if (← graph g).formals.contains v then return false
  let q ← newFormalPair g (.value v)
  updateGraph g fun y => { y with formals := y.formals.put s q }
  return true

/-- A value is a parameter already, or a pair for it enters a vacant slot. -/
theorem wp_addSlot {s : Slot} {v : ValueId} {Q : Bool → Registry → Prop}
    (hs : s = .own v ∨ s = .global v)
    (hold : ∀ y, r.graph? g = some y → y.formals.contains v = true → Q false r)
    (hnew : ∀ y en x, r.graph? g = some y → y.formals.Vacant s → y.entryNode? = some en →
      (r.giveFormal g (.value v) s).node? en = some x → Q true
        (((r.giveFormal g (.value v) s).control en r.nextPair.input).control en
          r.nextPair.output)) :
    wp Fault.Genuine (addSlot g s v) Q r := by
  unfold addSlot
  refine wp_graph (fun y hy => ?_) fun _ => nofun
  cases hv : y.formals.contains v with
  | true => exact wp_pure (hold y hy hv)
  | false =>
    refine wp_newFormalPair fun y' en x hy' hen hx => wp_pure ?_
    rw [hy] at hy'
    cases hy'
    exact hnew y en x hy ((Parameters.vacant_iff hs).2 hv) hen hx

/-- Gives `g` the pair that stands for all variadic arguments. -/
def addVariadic (g : GraphId) (id : FunctionId) : Work Unit := do
  let q ← newFormalPair g (.variadic id)
  addData q.input q.output
  setVariadic g q

/-- The variadic pair enters the graph, which has had none. -/
theorem wp_setVariadic {q : ParameterPair} {k : Unit → Work β}
    (h : ∀ y, r.graph? g = some y → y.formals.Vacant .variadic → wp Fault.Genuine (k ()) Q
      (r.reviseGraph g fun y => { y with formals := y.formals.put .variadic q })) :
    wp Fault.Genuine (setVariadic g q >>= k) Q r := by
  unfold setVariadic putGraph
  rw [bind_assoc]
  refine wp_graph (fun y hy => ?_) fun _ => nofun
  rw [bind_assoc]
  refine wp_require (fun p hp => ?_) fun _ => nofun
  obtain ⟨hv, rfl⟩ := Parameters.setVariadic?_eq_some_iff.1 hp
  refine wp_modifyRegistry ?_
  rw [reviseGraph_eq hy fun y => { y with formals := y.formals.put .variadic q }]
  exact h y hy hv

/-- A new actual parameter: likewise, its pair might as well have been entered first. -/
theorem wp_newActualPair {c : NodeId} {key : NodeKey} {s : Slot} {k : ParameterPair → Work β}
    {x : Node} (hx : r.node? c = some x) (h : wp Fault.Genuine (k r.nextPair) Q
      (((r.giveActual c g key s).control c r.nextPair.input).control c r.nextPair.output)) :
    wp Fault.Genuine (addPair g key c >>= fun q => actuals c >>= fun ps =>
      updateNode c (fun x => { x with actuals? := some (ps.put s q) }) >>= fun _ => k q) Q r := by
  refine wp_addPair fun _ _ => ?_
  unfold actuals
  rw [bind_assoc]
  refine wp_node (fun z hz => ?_) fun _ => nofun
  rw [pure_bind]
  refine wp_updateNode ?_
  intro _ _
  -- as for formal parameters
  rw [reviseNode_control, reviseNode_control]
  -- the actual parameters are still those of the node before its edges
  have hz' : z.actuals? = x.actuals? := by
    simp only [node?_control, node?_pushPair, if_neg (ne_nextPair hx), hx, Option.map_some,
      Option.some.injEq] at hz
    rw [← hz]
  have hsame : (r.pushPair g key).reviseNode c
      (fun x => { x with actuals? := some ((z.actuals?.getD .empty).put s r.nextPair) }) =
        r.giveActual c g key s := by
    refine reviseNode_congr fun w hw => ?_
    rw [node?_pushPair, if_neg (ne_nextPair hx), hx] at hw
    cases hw
    rw [hz']
    rfl
  rw [hsame]
  exact h

/-- A call passes a value under the pair that it has for it, or under one that it is given. -/
theorem wp_actualPair {c : NodeId} {v : ValueId} {Q : ParameterPair → Registry → Prop}
    (isGlobal : Bool) (hold : ∀ x q, r.node? c = some x → x.actuals.find? v = some q → Q q r)
    (hnew : ∀ x s, r.node? c = some x → (s = .own v ∨ s = .global v) → x.actuals.Vacant s →
      Q r.nextPair (((r.giveActual c g (.value v) s).control c r.nextPair.input).control c
        r.nextPair.output)) :
    wp Fault.Genuine (actualPair c g v isGlobal) Q r := by
  unfold actualPair actuals
  rw [bind_assoc]
  refine wp_node (fun x hx => ?_) fun _ => nofun
  have hactuals : x.actuals?.getD .empty = x.actuals := rfl
  rw [pure_bind, hactuals]
  cases hq : x.actuals.find? v with
  | some q => exact wp_pure (hold x q hx hq)
  | none =>
    -- globals and other values go to different slots
    have hslot : ∃ s, (s = .own v ∨ s = .global v) ∧ ∀ (ps : Parameters) q,
        (if isGlobal = true then ps.addGlobal v q else ps.addOwn v q) = ps.put s q := by
      cases isGlobal with
      | true => exact ⟨.global v, Or.inr rfl, fun _ _ => rfl⟩
      | false => exact ⟨.own v, Or.inl rfl, fun _ _ => rfl⟩
    obtain ⟨s, hs, hput⟩ := hslot
    have hvacant := (Parameters.vacant_iff hs).2 (Parameters.find?_eq_none_iff.1 hq)
    simp only [hput]
    exact wp_newActualPair hx (wp_pure (hnew x s hx hs hvacant))

/-! ## Links -/

/-- The check of a node that is to be linked changes nothing. -/
theorem wp_checkCall {m : Module} {c : NodeId} {k : Unit → Work β}
    (h : wp Fault.Genuine (k ()) Q r) : wp Fault.Genuine (checkCall m c >>= k) Q r := by
  unfold checkCall
  rw [bind_assoc]
  refine wp_node (fun _ _ => ?_) fun _ => nofun
  rw [bind_assoc]
  refine wp_ask (fun _ _ => ?_) nofun
  split
  · rw [pure_bind]
    exact h
  · exact wp_throw_bind nofun

/-- Draws the edges of a call `c` of `h` that is linked to `g` and binds its parameters. This is what
`linkCall` does last, be the link new or not. -/
def settleLink (m : Module) (b : BlockId) (c : NodeId) (h g : GraphId) : Work Unit := do
  addControl c (← entry g)
  updateUnit h (.block b) fun u => { u with callSites := u.callSites.insert c }
  absorb m h g
  bindActuals m c g

end Work

end Sdg
