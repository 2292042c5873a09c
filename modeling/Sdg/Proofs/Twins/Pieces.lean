import Sdg.Build.Propagation
import Sdg.Proofs.Twins.Rules

/-!
# Parameters of registries that are alike

Where registries are alike, their nodes, graphs and units are read and changed alike. So are formal
and actual parameters, and what is new goes on to the callers alike.

Main results:

* `Alike.bindActuals` — the actual parameters of a call are brought up to date alike;
* `Alike.propagate` — new parameters go on to the callers alike.
-/

namespace Sdg

namespace Work

namespace Alike

variable {ρ : Likeness} {m : Module} {a a' b b' c c' n n' : NodeId} {g g' h h' : GraphId}
  {q q' : ParameterPair} {v : ValueId} {key : NodeKey} {k : BlockKey}

/-! ## Nodes -/

theorem node (hn : ρ.Node n n') : Alike ρ (Node.Like ρ) (node n) (Work.node n') :=
  bind registry fun _ _ hrs => require (ρ.node hrs hn) (.nodeGone hn)

theorem putNode {x x' : Node} (hn : ρ.Node n n') (hx : x.Like ρ x') :
    Alike ρ Eq (putNode n x) (Work.putNode n' x') :=
  modifyRegistry fun _ _ hrs => ρ.setNode hrs hn hx

theorem updateNode {f f' : Node → Node} (hn : ρ.Node n n')
    (hf : ∀ x x', x.Like ρ x' → (f x).Like ρ (f' x')) :
    Alike ρ Eq (updateNode n f) (Work.updateNode n' f') :=
  bind (node hn) fun x x' hx => putNode hn (hf x x' hx)

theorem newNode {x x' : Node} (hx : x.Like ρ x') :
    Alike ρ ρ.Node (newNode x) (Work.newNode x') :=
  fun _ _ hrs => .registry (.bind (modifyRegistry (fun _ _ h => ρ.pushNode h hx) _ _ hrs)
    fun _ _ _ _ h => .pure ⟨ρ.nextNode hrs, h.2⟩)

theorem addControl (ha : ρ.Node a a') (hb : ρ.Node b b') :
    Alike ρ Eq (addControl a b) (Work.addControl a' b') := by
  refine seq (updateNode ha fun x x' hx => ?_) (updateNode hb fun x x' hx => ?_)
  · exact { hx with controls := hx.controls.insert ρ.biUnique_node hb }
  · exact { hx with controlledBy := hx.controlledBy.insert ρ.biUnique_node ha }

theorem addData (ha : ρ.Node a a') (hb : ρ.Node b b') :
    Alike ρ Eq (addData a b) (Work.addData a' b') := by
  refine seq (updateNode ha fun x x' hx => ?_) (updateNode hb fun x x' hx => ?_)
  · exact { hx with feeds := hx.feeds.insert ρ.biUnique_node hb }
  · exact { hx with fedBy := hx.fedBy.insert ρ.biUnique_node ha }

/-! ## Graphs -/

theorem graph (hg : ρ.Graph g g') : Alike ρ (Graph.Like ρ) (graph g) (Work.graph g') :=
  bind registry fun _ _ hrs => require (ρ.graph hrs hg) (.graphGone hg)

theorem putGraph {y y' : Graph} (hg : ρ.Graph g g') (hy : y.Like ρ y') :
    Alike ρ Eq (putGraph g y) (Work.putGraph g' y') :=
  modifyRegistry fun _ _ hrs => ρ.setGraph hrs hg hy

theorem updateGraph {f f' : Graph → Graph} (hg : ρ.Graph g g')
    (hf : ∀ y y', y.Like ρ y' → (f y).Like ρ (f' y')) :
    Alike ρ Eq (updateGraph g f) (Work.updateGraph g' f') :=
  bind (graph hg) fun y y' hy => putGraph hg (hf y y' hy)

theorem newGraph (f : FunctionId) : Alike ρ ρ.Graph (newGraph f) (Work.newGraph f) := by
  intro r s hrs
  refine .registry ?_
  have hc : r.byFunction.contains f = s.byFunction.contains f := optionRel_isSome (ρ.lookup? f hrs)
  rw [hc]
  -- the function has a graph in both registries, or in neither
  split
  · exact throwBind (.same (f := .secondGraph f) trivial) r s hrs
  · exact .modifyRegistry (.pure ⟨ρ.nextGraph hrs, ρ.pushGraph hrs (.fresh f)⟩)

theorem entry (hg : ρ.Graph g g') : Alike ρ ρ.Node (entry g) (Work.entry g') :=
  bind (graph hg) fun _ _ hy => require hy.entryNode? (.noEntry hg)

theorem owner (hc : ρ.Node c c') : Alike ρ ρ.Graph (owner c) (Work.owner c') :=
  bind (node hc) fun _ _ hx => require hx.graph? (.ownerless hc)

/-! ## Units -/

theorem updateUnit {f f' : BlockUnit → BlockUnit} (hg : ρ.Graph g g') (k : BlockKey)
    (hf : ∀ u u', u.Like ρ u' → (f u).Like ρ (f' u')) :
    Alike ρ Eq (updateUnit g k f) (Work.updateUnit g' k f') :=
  bind (graph hg) fun _ _ hy => bind (require (hy.unit? k) (.same trivial)) fun _ _ _ =>
    putGraph hg (hy.modifyUnit hf k)

theorem addUnitEdge (hg : ρ.Graph g g') (k l : BlockKey) (label : Nat) :
    Alike ρ Eq (addUnitEdge g k l label) (Work.addUnitEdge g' k l label) := by
  refine seq (updateUnit hg k fun u u' hu => ?_) (updateUnit hg l fun u u' hu => ?_)
  · exact { hu with successors := by rw [hu.successors] }
  · exact { hu with predecessors := by rw [hu.predecessors] }

theorem addUnitControl (hg : ρ.Graph g g') (k l : BlockKey) :
    Alike ρ Eq (addUnitControl g k l) (Work.addUnitControl g' k l) := by
  refine seq (updateUnit hg k fun u u' hu => ?_) (updateUnit hg l fun u u' hu => ?_)
  · exact { hu with controls := by rw [hu.controls] }
  · exact { hu with controlledBy := by rw [hu.controlledBy] }

/-! ## Nodes of graphs -/

theorem indexNode (hg : ρ.Graph g g') (key : NodeKey) (hn : ρ.Node n n') :
    Alike ρ Eq (indexNode g key n) (Work.indexNode g' key n') := by
  refine bind (graph hg) fun y y' hy => ?_
  have hput : Alike ρ Eq (Work.putGraph g { y with index := y.index.insert key n })
      (Work.putGraph g' { y' with index := y'.index.insert key n' }) :=
    putGraph hg { hy with index := hy.index.insert hn }
  have hc : y.index.contains key = true ↔ y'.index.contains key = true := by
    rw [hy.index.contains_eq]
  exact when hc (throw (.duplicate hg)) hput

theorem ownedNode (hg : ρ.Graph g g') (key : NodeKey) (block? : Option BlockKey) :
    Alike ρ ρ.Node (ownedNode g key block?) (Work.ownedNode g' key block?) := by
  rw [ownedNode_eq, ownedNode_eq]
  exact newNode (.fresh hg key block?)

theorem addNode (hg : ρ.Graph g g') (key : NodeKey) :
    Alike ρ ρ.Node (addNode g key) (Work.addNode g' key) :=
  bind (ownedNode hg key none) fun _ _ hn => seq (indexNode hg key hn) (pure hn)

theorem addUnitNode (hg : ρ.Graph g g') (k : BlockKey) (key : NodeKey) :
    Alike ρ ρ.Node (addUnitNode g k key) (Work.addUnitNode g' k key) := by
  refine bind (ownedNode hg key (some k)) fun n n' hn => seq (indexNode hg key hn) ?_
  refine seq (updateUnit hg k fun u u' hu => ?_) (pure hn)
  exact { hu with nodes := List.rel_append hu.nodes (.cons hn .nil) }

theorem addPair (hg : ρ.Graph g g') (key : NodeKey) (hc : ρ.Node c c') :
    Alike ρ (ParameterPair.Like ρ) (addPair g key c) (Work.addPair g' key c') :=
  bind (ownedNode hg key none) fun _ _ ha =>
    bind (ownedNode hg key none) fun _ _ hb =>
      seq (addControl hc ha) (seq (addControl hc hb) (pure ⟨ha, hb⟩))

/-! ## Formal parameters -/

theorem newFormalPair (hg : ρ.Graph g g') (key : NodeKey) :
    Alike ρ (ParameterPair.Like ρ) (newFormalPair g key) (Work.newFormalPair g' key) :=
  bind (entry hg) fun _ _ hc => addPair hg key hc

theorem addFormal (hg : ρ.Graph g g') (v : ValueId) :
    Alike ρ Eq (addFormal g v) (Work.addFormal g' v) := by
  refine bind (graph hg) fun y y' hy => ?_
  refine ite (by rw [hy.formals.contains_eq]) (pure rfl) ?_
  refine bind (newFormalPair hg _) fun q q' hq => ?_
  refine seq (updateGraph hg fun z z' hz => ?_) (pure rfl)
  exact { hz with formals := hz.formals.addOwn hq v }

theorem addFormalGlobal (hg : ρ.Graph g g') (v : ValueId) :
    Alike ρ Eq (addFormalGlobal g v) (Work.addFormalGlobal g' v) := by
  refine bind (graph hg) fun y y' hy => ?_
  refine ite (by rw [hy.formals.contains_eq]) (pure rfl) ?_
  refine bind (newFormalPair hg _) fun q q' hq => ?_
  refine seq (updateGraph hg fun z z' hz => ?_) (pure rfl)
  exact { hz with formals := hz.formals.addGlobal hq v }

theorem setVariadic (hg : ρ.Graph g g') (hq : q.Like ρ q') :
    Alike ρ Eq (setVariadic g q) (Work.setVariadic g' q') :=
  bind (graph hg) fun _ _ hy => bind (require (hy.formals.setVariadic? hq) (.same trivial))
    fun _ _ hp => putGraph hg { hy with formals := hp }

theorem addDeclaredFormals (hg : ρ.Graph g g') (id : FunctionId) (f : Function) :
    Alike ρ Eq (addDeclaredFormals g id f) (Work.addDeclaredFormals g' id f) := by
  refine bind (loop fun v _ => bind (addFormal hg v) fun _ _ _ => pure rfl) fun _ _ _ => ?_
  exact ite .rfl (bind (newFormalPair hg _) fun q q' hq =>
    seq (addData hq.input hq.output) (setVariadic hg hq)) (pure rfl)

/-! ## Actual parameters -/

theorem actuals (hc : ρ.Node c c') :
    Alike ρ (Parameters.Like ρ) (actuals c) (Work.actuals c') :=
  bind (node hc) fun _ _ hx => pure (.getD hx.actuals?)

theorem actualPair (hc : ρ.Node c c') (hg : ρ.Graph g g') (v : ValueId) (isGlobal : Bool) :
    Alike ρ (ParameterPair.Like ρ) (actualPair c g v isGlobal)
      (Work.actualPair c' g' v isGlobal) := by
  refine bind (actuals hc) fun ps ps' hps => ?_
  have hfind := hps.find? v
  generalize ps.find? v = o at hfind
  generalize ps'.find? v = o' at hfind
  cases hfind with
  | some hq => exact pure hq
  | none =>
    refine bind (addPair hg _ hc) fun q q' hq => bind (actuals hc) fun qs qs' hqs => ?_
    refine seq (updateNode hc fun x x' hx => { hx with actuals? := .some ?_ }) (pure hq)
    cases isGlobal with
    | true => exact hqs.addGlobal hq v
    | false => exact hqs.addOwn hq v

theorem bindPair (hc : ρ.Node c c') (hg : ρ.Graph g g') (v : ValueId) (hq : q.Like ρ q')
    (isGlobal : Bool) :
    Alike ρ Eq (Work.bind c g v q isGlobal) (Work.bind c' g' v q' isGlobal) :=
  bind (actualPair hc hg v isGlobal) fun _ _ hp =>
    seq (addData hp.input hq.input) (addData hq.output hp.output)

theorem arguments (m : Module) (hc : ρ.Node c c') :
    Alike ρ Eq (arguments m c) (Work.arguments m c') := by
  refine bind (node hc) fun x x' hx => ?_
  rw [hx.key]
  refine same (ask _) fun op? => ?_
  split
  · exact pure rfl
  · exact throw (.notCall hc)

/-- The bindings of a call differ in the formals alone. -/
theorem bindingsOf {p p' : Parameters} (hp : p.Like ρ p') (declared args : List ValueId) :
    List.Forall₂ (fun x x' => x.1 = x'.1 ∧ x.2.1.Like ρ x'.2.1 ∧ x.2.2 = x'.2.2)
      (bindingsOf declared args p) (Work.bindingsOf declared args p') := by
  refine List.rel_append (List.rel_append (List.rel_append ?_ ?_) ?_) ?_
  · refine List.rel_filterMap (R := Eq) (fun x x' hx => ?_) (List.forall₂_refl _)
    subst hx
    exact optionRel_map (hp.find? x.1) fun _ _ hq => ⟨rfl, hq, rfl⟩
  · refine List.rel_map (fun x x' hx => ⟨hx.1, hx.2, rfl⟩)
      (List.rel_filter (fun x x' hx => ?_) hp.own)
    show (!declared.contains x.1) = true ↔ (!declared.contains x'.1) = true
    rw [hx.1]
  · exact List.rel_map (fun x x' hx => ⟨hx.1, hx.2, rfl⟩) hp.globals
  · refine List.rel_flatMap (forall₂_toList hp.variadic?) fun q q' hq => ?_
    refine List.rel_map (R := Eq) (fun x x' hx => ?_) (List.forall₂_refl _)
    subst hx
    exact ⟨rfl, hq, rfl⟩

theorem bindActuals (m : Module) (hc : ρ.Node c c') (hg : ρ.Graph g g') :
    Alike ρ Eq (bindActuals m c g) (Work.bindActuals m c' g') := by
  refine bind (owner hc) fun caller caller' hcaller => same (arguments m hc) fun args => ?_
  refine bind (graph hg) fun y y' hy => ?_
  rw [hy.function]
  refine same (ask _) fun f => ?_
  refine bind (forIn (bindingsOf hy.formals f.params args) fun x x' _ hx => ?_)
    fun _ _ _ => pure rfl
  obtain ⟨v, q, isGlobal⟩ := x
  obtain ⟨v', q', isGlobal'⟩ := x'
  obtain ⟨rfl, hq, rfl⟩ := hx
  exact seq (bindPair hc hcaller v hq isGlobal) (pure rfl)

/-! ## Propagation -/

theorem isArgument (m : Module) (v : ValueId) :
    Alike ρ Eq (isArgument m v) (Work.isArgument m v) :=
  same (ask _) fun _ => pure rfl

theorem absorbWith {propagate propagate' : GraphId → Work Unit}
    (hp : ∀ g g', ρ.Graph g g' → Alike ρ Eq (propagate g) (propagate' g')) (m : Module)
    (hg : ρ.Graph g g') (hh : ρ.Graph h h') :
    Alike ρ Eq (absorbWith propagate m g h) (Work.absorbWith propagate' m g' h') := by
  refine bind (graph hh) fun y y' hy => ?_
  have hheap : Alike ρ Eq
      (y.formals.own.keys.filterM fun v => return !(← Work.isArgument m v))
      (y'.formals.own.keys.filterM fun v => return !(← Work.isArgument m v)) := by
    rw [hy.formals.own.keys_eq]
    exact filterM fun v => same (isArgument m v) fun _ => pure rfl
  refine same hheap fun heap => ?_
  rw [hy.formals.globals.keys_eq]
  -- whether something is new so far is the state of both loops
  refine same (loop fun v b => same (addFormalGlobal hg v) fun _ => pure rfl) fun b => ?_
  refine same (loop fun v b => same (addFormal hg v) fun _ => pure rfl) fun b => ?_
  exact ite .rfl (seq (report _ _) (hp g g' hg)) (pure rfl)

/-- The bounds of the rounds need not be the same. -/
theorem propagateWithin (m : Module) (depth : Nat) :
    ∀ (depth' : Nat) (g g' : GraphId), ρ.Graph g g' →
      Alike ρ Eq (propagateWithin m depth g) (Work.propagateWithin m depth' g') := by
  induction depth with
  | zero => exact fun _ _ _ _ => cutLeft
  | succ depth ih =>
    intro depth' g g' hg
    cases depth' with
    | zero => exact cutRight
    | succ depth' =>
      refine bind (graph hg) fun y y' hy => bind (forIn hy.callers fun c c' _ hc => ?_)
        fun _ _ _ => pure rfl
      refine bind (node hc) fun x x' hx => ?_
      have howner := hx.graph?
      generalize x.graph? = o at howner
      generalize x'.graph? = o' at howner
      cases howner with
      | none => exact pure rfl
      | some hh =>
        exact seq (bindActuals m hc hg) (seq (absorbWith (ih depth') m hh hg) (pure rfl))

theorem propagate (m : Module) (hg : ρ.Graph g g') :
    Alike ρ Eq (propagate m g) (Work.propagate m g') :=
  bind registry fun _ _ _ => propagateWithin m _ _ g g' hg

theorem absorb (m : Module) (hg : ρ.Graph g g') (hh : ρ.Graph h h') :
    Alike ρ Eq (absorb m g h) (Work.absorb m g' h') :=
  absorbWith (fun _ _ => propagate m) m hg hh

theorem discoverGlobal (m : Module) (hg : ρ.Graph g g') (v : ValueId) :
    Alike ρ Eq (discoverGlobal m g v) (Work.discoverGlobal m g' v) := by
  exact same (addFormalGlobal hg v) fun _ =>
    ite .rfl (seq (report _ _) (propagate m hg)) (pure rfl)

theorem discoverHeap (m : Module) (hg : ρ.Graph g g') (v : ValueId) :
    Alike ρ Eq (discoverHeap m g v) (Work.discoverHeap m g' v) := by
  exact same (addFormal hg v) fun _ => ite .rfl (seq (report _ _) (propagate m hg)) (pure rfl)

end Alike

end Work

end Sdg
