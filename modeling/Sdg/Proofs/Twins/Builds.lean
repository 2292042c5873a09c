import Sdg.Proofs.Building.Requests
import Sdg.Proofs.Registry.Globals
import Sdg.Proofs.Twins.Teardown

/-!
# Builds in registries that are alike

A body is visited alike in both: each call is linked to the graph that corresponds, each node, unit
and edge comes at the same time. So functions are built and refused alike, and no build depends on
the names that are handed out or on what was torn down before.

Main results:

* `Alike.request` — functions are requested alike;
* `Both.constructRoot` — roots are constructed alike, once the shared nodes are there.
-/

namespace Sdg

namespace Work

namespace Alike

variable {ρ : Likeness} {e : Setup} {c c' n n' : NodeId} {g g' h h' : GraphId} {v : ValueId}
  {b : BlockId} {req : FunctionId → Work GraphId}

/-! ## Calls -/

theorem addLink (hc : ρ.Node c c') (hg : ρ.Graph g g') :
    Alike ρ Eq (addLink c g) (Work.addLink c' g') := by
  refine bind (node hc) fun x x' hx => ?_
  refine ite (hx.callees.mem_iff ρ.biUnique_graph hg) (pure rfl) ?_
  refine seq (putNode hc { hx with callees := hx.callees.insert ρ.biUnique_graph hg }) ?_
  refine seq (updateGraph hg fun y y' hy => ?_) (pure rfl)
  exact { hy with
    callers := hy.callers.insert ρ.biUnique_node hc
    refcount := congrArg (· + 1) hy.refcount }

theorem checkCall (m : Module) (hc : ρ.Node c c') :
    Alike ρ Eq (checkCall m c) (Work.checkCall m c') := by
  refine bind (node hc) fun x x' hx => ?_
  rw [hx.key]
  refine same (ask _) fun op? => ?_
  split
  · exact pure rfl
  · exact throw (.same trivial)

theorem settleLink (m : Module) (b : BlockId) (hc : ρ.Node c c') (hg : ρ.Graph g g')
    (hh : ρ.Graph h h') :
    Alike ρ Eq (settleLink m b c g h) (Work.settleLink m b c' g' h') := by
  refine bind (entry hh) fun n n' hn => seq (addControl hc hn) ?_
  refine seq (updateUnit hg _ fun u u' hu => ?_) (seq (absorb m hg hh) (bindActuals m hc hh))
  exact { hu with callSites := hu.callSites.insert ρ.biUnique_node hc }

section

variable (hreq : ∀ f, Alike ρ ρ.Graph (req f) (req f))

include hreq

theorem linkCall (m : Module) (b : BlockId) (hc : ρ.Node c c') (f : FunctionId) :
    Alike ρ Eq (linkCall req m b c f) (Work.linkCall req m b c' f) := by
  refine seq (checkCall m hc) (bind (owner hc) fun g g' hg => bind (hreq f) fun h h' hh => ?_)
  have hrest : Alike ρ Eq (Work.settleLink m b c g h) (Work.settleLink m b c' g' h') :=
    settleLink m b hc hg hh
  refine same (addLink hc hh) fun isNew => ?_
  exact ite .rfl (same (ask _) fun x => seq (report _ _) hrest) hrest

theorem visitDirectCall (hg : ρ.Graph g g') (b : BlockId) (hc : ρ.Node c c') (v : ValueId)
    (f : FunctionId) :
    Alike ρ Eq (visitDirectCall req e g b c v f) (Work.visitDirectCall req e g' b c' v f) := by
  refine same (ask _) fun x => ?_
  refine when .rfl (modifyRegistry fun r s hrs => ?_) (when .rfl (linkCall hreq _ b hc f) ?_)
  · -- what is gathered does not matter
    exact ρ.gather hrs hc
  · exact ite .rfl (seq (report _ _) (discoverHeap _ hg v)) (pure rfl)

theorem visitPointee (m : Module) (b : BlockId) (hc : ρ.Node c c') (v : ValueId)
    (args : List ValueId) (p : Pointee) :
    Alike ρ Eq (visitPointee req m b c v args p) (Work.visitPointee req m b c' v args p) := by
  refine ite .rfl (pure rfl) (same (ask _) fun t => same (ask _) fun f? => ?_)
  cases f? with
  | some f =>
    refine same (ask _) fun x => ?_
    -- whether the call fits is asked only where there is a body
    refine ite .rfl (same (ask _) fun fits => ?_) (same (pure rfl) fun fits => ?_)
    all_goals
      exact ite .rfl (seq (linkCall hreq m b hc f) (pure rfl)) (seq (report _ _) (pure rfl))
  | none =>
    refine same (ask _) fun x => ?_
    exact ite .rfl (throwBind (.same trivial)) (pure rfl)

theorem visitIndirectCall (b : BlockId) (hc : ρ.Node c c') (v callee : ValueId)
    (args : List ValueId) : Alike ρ Eq (visitIndirectCall req e g b c v callee args)
      (Work.visitIndirectCall req e g' b c' v callee args) := by
  unfold Work.visitIndirectCall
  cases e.pointsTo? with
  | none => exact report _ _
  | some pointsTo =>
    refine same (loop fun p _ => same (visitPointee hreq _ b hc v args p) fun _ => pure rfl)
      fun isResolved => ?_
    exact ite .rfl (report _ _) (pure rfl)

theorem visitCall (hg : ρ.Graph g g') (b : BlockId) (hc : ρ.Node c c') (v callee : ValueId)
    (args : List ValueId) : Alike ρ Eq (visitCall req e g b c v callee args)
      (Work.visitCall req e g' b c' v callee args) := by
  refine seq (updateGraph hg fun y y' hy => ?_) ?_
  · exact { hy with callNodes := hy.callNodes.insert ρ.biUnique_node hc }
  refine same (ask _) fun t => same (ask _) fun f? => ?_
  cases f? with
  | some f => exact visitDirectCall hreq hg b hc v f
  | none => exact visitIndirectCall hreq b hc v callee args

end

/-! ## Bodies -/

theorem visitAddress (m : Module) (hg : ρ.Graph g g') (v : ValueId) :
    Alike ρ Eq (visitAddress m g v) (Work.visitAddress m g' v) :=
  same (ask _) fun base => same (ask _) fun _ => ite .rfl (discoverGlobal m hg base) (pure rfl)

theorem addExit (hg : ρ.Graph g g') (kind : ExitKind) :
    Alike ρ ρ.Node (addExit g kind) (Work.addExit g' kind) := by
  refine seq (updateGraph hg fun y y' hy => { hy with exitUnit? := .some (.fresh .exit) }) ?_
  refine bind (graph hg) fun y y' hy => ?_
  rw [hy.function]
  refine bind (addUnitNode hg _ _) fun n n' hn => ?_
  exact seq (updateGraph hg fun z z' hz => { hz with exitNode? := .some hn }) (pure hn)

theorem visitReturn (hg : ρ.Graph g g') (b : BlockId) (hn : ρ.Node n n') :
    Alike ρ Eq (visitReturn g b n) (Work.visitReturn g' b n') := by
  refine bind (graph hg) fun y y' hy => ?_
  have hexit := hy.exitNode?
  generalize y.exitNode? = o at hexit
  generalize y'.exitNode? = o' at hexit
  cases hexit with
  | none =>
    exact bind (addExit hg .returns) fun _ _ hx => seq (addControl hn hx) (addUnitEdge hg _ _ _)
  | some hx => exact bind (pure hx) fun _ _ hx => seq (addControl hn hx) (addUnitEdge hg _ _ _)

section

variable (hreq : ∀ f, Alike ρ ρ.Graph (req f) (req f))

include hreq

theorem visitInstruction (hg : ρ.Graph g g') (b : BlockId) (hn : ρ.Node n n') (v : ValueId)
    (i : Instruction) : Alike ρ Eq (visitInstruction req e g b n v i)
      (Work.visitInstruction req e g' b n' v i) := by
  unfold Work.visitInstruction
  split
  · exact visitCall hreq hg _ hn v _ _
  · exact visitAddress _ hg _
  · exact visitAddress _ hg _
  · exact seq (visitAddress _ hg _) (visitAddress _ hg _)
  · exact visitReturn hg b hn
  · exact pure rfl

theorem visitValue (hg : ρ.Graph g g') (b : BlockId) (v : ValueId) :
    Alike ρ Eq (visitValue req e g b v) (Work.visitValue req e g' b v) := by
  refine bind (addUnitNode hg _ _) fun n n' hn => same (ask _) fun i? => ?_
  refine same (require ?_ (.same trivial)) fun i =>
    seq (report _ _) (visitInstruction hreq hg b hn v i)
  cases i? with
  | none => exact .none
  | some i => exact .some rfl

theorem visitBlock (hg : ρ.Graph g g') (b : BlockId) :
    Alike ρ Eq (visitBlock req e g b) (Work.visitBlock req e g' b) := by
  refine same (ask _) fun x => when .rfl (throw (.same trivial)) ?_
  refine seq (updateGraph hg fun y y' hy => { hy with units := hy.units.insert (.fresh _) }) ?_
  exact bind (loop fun v _ => seq (visitValue hreq hg b v) (pure rfl)) fun _ _ _ => pure rfl

end

theorem addSuccessors (m : Module) (hg : ρ.Graph g g') (b : BlockId) :
    Alike ρ Eq (addSuccessors m g b) (Work.addSuccessors m g' b) := by
  refine same (ask _) fun ss => bind (loop fun p _ => ?_) fun _ _ _ => pure rfl
  refine when .rfl (throw (.same trivial)) (bind (graph hg) fun y y' hy => ?_)
  exact bind (require (hy.units.get? p.1) (.same trivial)) fun _ _ _ =>
    seq (addUnitEdge hg _ _ _) (pure rfl)

/-! ## Control dependence -/

theorem deciders (hg : ρ.Graph g g') : Alike ρ
    (List.Forall₂ fun p p' => p.1 = p'.1 ∧ p.2.Like ρ p'.2) (deciders g) (Work.deciders g') := by
  refine bind (graph hg) fun y y' hy => pure (List.rel_filter (fun p p' hp => ?_) hy.units)
  show p.2.decides = true ↔ p'.2.decides = true
  rw [BlockUnit.decides, BlockUnit.decides, hp.2.successors]

theorem addScopeControls (hg : ρ.Graph g g') :
    Alike ρ Eq (addScopeControls e g) (Work.addScopeControls e g') := by
  refine bind (graph hg) fun y y' hy => bind (deciders hg) fun us us' hus => ?_
  have hempty : us.isEmpty = us'.isEmpty := by cases hus <;> rfl
  rw [hempty, hy.function]
  refine ite .rfl (pure rfl) (same (ask _) fun scope => ?_)
  refine bind (forIn hus fun p p' _ hp => ?_) fun _ _ _ => pure rfl
  obtain ⟨b, u⟩ := p
  obtain ⟨b', u'⟩ := p'
  obtain ⟨rfl, _⟩ := hp
  exact bind (loop fun c _ => seq (addUnitControl hg _ _) (pure rfl)) fun _ _ _ => pure rfl

theorem phiControlsOf (m : Module) (hg : ρ.Graph g g') (b : BlockId) (hn : ρ.Node n n') :
    Alike ρ (List.Forall₂ fun p p' => ρ.Node p.1 p'.1 ∧ ρ.Node p.2 p'.2) (phiControlsOf m g b n)
      (Work.phiControlsOf m g' b n') := by
  refine bind (node hn) fun x x' hx => ?_
  rw [hx.key]
  refine same (ask _) fun op? => ?_
  split
  · refine bind (graph hg) fun y y' hy => ?_
    refine mapM (R := Eq) (List.forall₂_same.2 fun _ _ => rfl) fun p p' hp => ?_
    subst hp
    refine bind (require (optionRel_bind (hy.units.get? p.2) fun u u' hu => ?_)
      (.foreignIncoming hn)) fun l l' hl => pure ⟨hl, hn⟩
    exact optionRel_getLast? hu.nodes
  · exact pure .nil

theorem addPhiControls (m : Module) (hg : ρ.Graph g g') :
    Alike ρ Eq (addPhiControls m g) (Work.addPhiControls m g') := by
  refine bind (graph hg) fun y y' hy => ?_
  refine bind (mapM (S := List.Forall₂ fun p p' => ρ.Node p.1 p'.1 ∧ ρ.Node p.2 p'.2) hy.units
    fun p p' hp => ?_) fun edges edges' hedges => ?_
  · obtain ⟨b, u⟩ := p
    obtain ⟨b', u'⟩ := p'
    obtain ⟨rfl, hu⟩ := hp
    exact bind (mapM hu.nodes fun n n' hn => phiControlsOf m hg b hn) fun _ _ hl =>
      pure (List.rel_flatten hl)
  · refine bind (forIn (List.rel_flatten hedges) fun p p' _ hp => ?_) fun _ _ _ => pure rfl
    exact seq (addControl hp.1 hp.2) (pure rfl)

theorem addLoopControls (hg : ρ.Graph g g') :
    Alike ρ Eq (addLoopControls g) (Work.addLoopControls g') := by
  refine bind (deciders hg) fun us us' hus => ?_
  refine bind (forIn (List.rel_filter (fun p p' hp => ?_) hus) fun p p' _ hp => ?_)
    fun _ _ _ => pure rfl
  · show p.2.hasSelfLoop = true ↔ p'.2.hasSelfLoop = true
    rw [BlockUnit.hasSelfLoop, BlockUnit.hasSelfLoop, hp.2.successors, hp.2.key]
  · obtain ⟨b, u⟩ := p
    obtain ⟨b', u'⟩ := p'
    obtain ⟨rfl, hu⟩ := hp
    have hkey : u'.key = u.key := hu.key
    have hadd : Alike ρ Eq (Work.addUnitControl g u.key u.key)
        (Work.addUnitControl g' u'.key u'.key) := by
      rw [hkey]
      exact addUnitControl hg _ _
    exact seq hadd (pure rfl)

theorem addControls (hg : ρ.Graph g g') :
    Alike ρ Eq (addControls e g) (Work.addControls e g') := by
  unfold Work.addControls
  refine when .rfl (addScopeControls hg) (when .rfl (addPhiControls _ hg) ?_)
  exact ite .rfl (addLoopControls hg) (pure rfl)

/-! ## Construction -/

theorem firstNode (hg : ρ.Graph g g') (name : String) :
    Alike ρ ρ.Node (firstNode g name) (Work.firstNode g' name) := by
  refine bind (graph hg) fun y y' hy => ?_
  refine bind (require (optionRel_bind hy.entryUnit? fun u u' hu => optionRel_head? hu.nodes)
    (.same trivial)) fun n n' hn => ?_
  exact bind (require hy.exitUnit? (.same trivial)) fun _ _ _ => pure hn

theorem endBuild {x : Function} (hg : ρ.Graph g g') (hn : ρ.Node n n') :
    Alike ρ Eq (endBuild e g n x) (Work.endBuild e g' n' x) := by
  refine seq (addControls hg) (bind (firstNode hg x.name) fun k k' hk => ?_)
  refine seq (addControl hn hk) (seq (updateGraph hg fun w w' hw => { hw with phase := rfl }) ?_)
  exact bind (graph hg) fun _ _ _ => seq (report _ _) (pure rfl)

theorem buildWith (hreq : ∀ f, Alike ρ ρ.Graph (req f) (req f)) (hg : ρ.Graph g g') :
    Alike ρ Eq (buildWith req e g) (Work.buildWith req e g') := by
  refine bind (graph hg) fun y y' hy => ?_
  rw [hy.function]
  refine same (ask _) fun f => ite .rfl (pure rfl) (seq (report _ _) ?_)
  refine seq (updateGraph hg fun z z' hz => { hz with phase := rfl }) ?_
  refine bind (addNode hg _) fun n n' hn => ?_
  refine seq (updateGraph hg fun z z' hz => { hz with entryNode? := .some hn }) ?_
  refine seq (addDeclaredFormals hg _ f) ?_
  refine bind (loop fun b _ => seq (visitBlock hreq hg b) (pure rfl)) fun _ _ _ => ?_
  refine seq (updateGraph hg fun z z' hz => { hz with entryBlock? := rfl }) ?_
  refine bind (loop fun b _ => seq (addSuccessors _ hg b) (pure rfl)) fun _ _ _ => ?_
  have hend := endBuild (e := e) (x := f) hg hn
  refine bind (graph hg) fun z z' hz => ?_
  have hnone : z.exitNode?.isNone = true ↔ z'.exitNode?.isNone = true := by
    rw [← Option.not_isSome, ← Option.not_isSome, optionRel_isSome hz.exitNode?]
  exact ite hnone (bind (addExit hg _) fun _ _ _ => hend) hend

theorem requestWithin (depth : Nat) : ∀ f,
    Alike ρ ρ.Graph (requestWithin e depth f) (Work.requestWithin e depth f) := by
  induction depth with
  | zero => exact fun _ => cutLeft
  | succ depth ih =>
    intro f
    refine bind registry fun r s hrs => ?_
    have hf := ρ.lookup? f hrs
    generalize r.lookup? f = o at hf
    generalize s.lookup? f = o' at hf
    cases hf with
    | some hg => exact pure hg
    | none =>
      refine bind (newGraph f) fun g g' hg => same (buildWith ih hg) fun isBuilt => ?_
      have hrest : Alike ρ ρ.Graph (do Work.unref g false; return g)
          (do Work.unref g' false; return g') := seq (unref hg false) (pure hg)
      exact ite .rfl (same (ask _) fun x => throwBind (.same trivial)) hrest

theorem request (f : FunctionId) : Alike ρ ρ.Graph (request e f) (Work.request e f) :=
  requestWithin _ f

end Alike

/-! ## Roots -/

variable {ρ : Likeness} {e : Setup} {r s : Registry}

/-- The same error, or graphs that correspond. -/
inductive RootLike (ρ : Likeness) : Except RootError GraphId → Except RootError GraphId → Prop where
  | ok {g g' : GraphId} : ρ.Graph g g' → RootLike ρ (.ok g) (.ok g')
  | error (x : RootError) : RootLike ρ (.error x) (.error x)

namespace Both

variable {α β : Type} {Q : α → β → Registry → Registry → Prop}

theorem addGlobals (m : Module) {k : Unit → Work α} {k' : Unit → Work β}
    (h : Both ρ Q (k ()) (k' ()) (r.withGlobals m.globals) (s.withGlobals m.globals)) :
    Both ρ Q (addGlobals m >>= k) (Work.addGlobals m >>= k') r s := by
  refine bind (of_wp (addGlobals_eq m) (addGlobals_eq m)) fun _ _ t u htu => ?_
  obtain ⟨rfl, rfl⟩ := htu
  exact h

/-- A root comes out alike in registries that are alike once the shared nodes are there. They stay
as they are if no function has the name. -/
theorem constructRoot (h : ρ.Holds (r.withGlobals e.program.globals)
    (s.withGlobals e.program.globals)) (name : String) :
    Both ρ (fun a a' t u => RootLike ρ a a' ∧ (ρ.Holds t u ∨ (t = r ∧ u = s ∧ ∃ x, a = .error x)))
      (constructRoot e name) (Work.constructRoot e name) r s := by
  unfold Work.constructRoot
  cases e.program.functionNamed? name with
  | none => exact report (pure ⟨.error _, Or.inr ⟨rfl, rfl, _, rfl⟩⟩)
  | some f =>
    refine addGlobals e.program (registry ?_)
    have hf := ρ.lookup? f h
    generalize (r.withGlobals e.program.globals).lookup? f = o at hf
    generalize (s.withGlobals e.program.globals).lookup? f = o' at hf
    -- one side has a graph for the function just in case the other has
    cases hf with
    | @some g g' hg =>
      have hheld : Alike ρ (RootLike ρ) (do retain g; return .ok g)
          (do retain g'; return .ok g') := .seq (.retain hg) (.pure (.ok hg))
      exact (hheld _ _ h).mono fun _ _ _ _ hQ => ⟨hQ.1, Or.inl hQ.2⟩
    | none =>
      refine report (bind (Alike.newGraph f _ _ h) fun g g' t u htu => ?_)
      obtain ⟨hg, htu⟩ := htu
      refine bind (Alike.buildWith Alike.request hg _ _ htu) fun isBuilt isBuilt' t u htu => ?_
      obtain ⟨rfl, htu⟩ := htu
      cases isBuilt with
      | true => exact registry (report (pure ⟨.ok hg, Or.inl htu⟩))
      | false =>
        refine bind (Alike.destroy hg _ _ htu) fun _ _ t u htu => ?_
        exact pure ⟨.error _, Or.inl htu.2⟩

theorem getOrBuild (h : ρ.Holds (r.withGlobals e.program.globals)
    (s.withGlobals e.program.globals)) (f : FunctionId) :
    Both ρ (fun g g' t u => ρ.Graph g g' ∧ ρ.Holds t u) (getOrBuild e f) (Work.getOrBuild e f)
      r s :=
  addGlobals e.program (Alike.request f _ _ h)

end Both

end Work

end Sdg
