import Sdg.Proofs.Building.Requests
import Sdg.Proofs.Lookup.Work

/-!
# Lookups of builds

Everything that a build asks the module is about an id that it was given, that a registry keeps, or
that an earlier query answered. In a closed module all of these are in range, whatever else may be
wrong with it; so a build that fails does so for another reason.

Main results:

* `resolves_absorb`, `resolves_bindActuals` — parameters;
* `resolves_visitBlock`, `resolves_addControls` — bodies;
* `resolves_request`, `resolves_constructRoot` — requests and roots.
-/

namespace Sdg

/-! ## What is given -/

/-- Whether an oracle points only at values that there are. -/
def PointsTo.Within (p : PointsTo) (m : Module) : Prop :=
  ∀ v, ∀ q ∈ p m v, q.isValid = true → q.target.Within m

/-- Whether a provider tells the scopes of every function that there is. -/
def ScopeProvider.Answers (s : ScopeProvider) (m : Module) : Prop :=
  ∀ f : FunctionId, f.Within m → ∃ scope, s m f = .ok scope

/-- Whether the module of a setup is closed, and nothing else that is `given` leads to an id without
an entry. -/
structure Setup.Answers (given : Prop) (e : Setup) : Prop where
  closed : e.program.IsClosed
  scopes : given → e.scopes.Answers e.program
  pointsTo : given → ∀ p, e.pointsTo? = some p → p.Within e.program

/-! ## What parameters stand for -/

namespace Parameters

variable {p : Parameters} {v w : ValueId} {q : ParameterPair}

theorem contains_of_own (h : p.own.get? v = some q) : p.contains v = true :=
  contains_eq_true_iff_at?.2 ⟨q, Or.inl h⟩

theorem contains_of_global (h : p.globals.get? v = some q) : p.contains v = true :=
  contains_eq_true_iff_at?.2 ⟨q, Or.inr h⟩

/-- Entering `v` makes nothing else a parameter. -/
theorem of_contains_put {s : Slot} (hs : s = .own v ∨ s = .global v)
    (h : (p.put s q).contains w = true) : w = v ∨ p.contains w = true := by
  cases hv : p.contains v with
  | true =>
    -- what is a parameter is not entered again
    have hput : p.put s q = p := by
      rcases hs with rfl | rfl
      · exact if_pos hv
      · exact if_pos hv
    exact Or.inr (hput ▸ h)
  | false =>
    have hvacant : p.Vacant s := by rcases hs with rfl | rfl <;> exact hv
    have hslot : ∀ t q', (p.put s q).at? t = some q' → t = s ∨ p.at? t = some q' := by
      intro t q' ht
      rw [at?_put hvacant] at ht
      split at ht
      · exact Or.inl ‹_›
      · exact Or.inr ht
    obtain ⟨q', h | h⟩ := contains_eq_true_iff_at?.1 h
    · rcases hslot _ _ h with rfl | h
      · exact Or.inl (by simpa using hs)
      · exact Or.inr (contains_of_own h)
    · rcases hslot _ _ h with rfl | h
      · exact Or.inl (by simpa using hs)
      · exact Or.inr (contains_of_global h)

end Parameters

/-- What a call binds is an argument of it or a parameter of the graph. -/
theorem Binding.within {m : Module} {declared args : List ValueId} {formals : Parameters}
    {v : ValueId} {q : ParameterPair} (h : Binding declared args formals v q)
    (ha : ∀ a ∈ args, a.Within m) (hf : ∀ w, formals.contains w = true → w.Within m) :
    v.Within m := by
  cases h with
  | declared _ harg _ => exact ha v (List.mem_of_getElem? harg)
  | heap _ hv => exact hf v (Parameters.contains_of_own hv)
  | global hv => exact hf v (Parameters.contains_of_global hv)
  | variadic _ harg _ => exact ha v (List.mem_of_getElem? harg)

namespace Work

variable {α : Type} {given : Prop} {e : Setup} {m : Module} {g h : GraphId} {c n : NodeId}
  {v : ValueId} {b : BlockId} {f : FunctionId} {request : FunctionId → Work GraphId}

/-! ## Formal parameters -/

theorem resolves_newFormalPair {key : NodeKey} (hkey : key.Within m) :
    Resolves given m (newFormalPair g key) :=
  .bind resolves_entry fun _ => resolves_addPair hkey

/-- Entering a parameter in one of the two slots for `v`. -/
theorem resolves_addSlot {s : Slot} (hs : s = .own v ∨ s = .global v) (hv : v.Within m) :
    Resolves given m (addSlot g s v) := by
  refine .bind (.graph nofun) fun _ => .ite (fun _ => .pure _) fun _ => ?_
  refine .bind (resolves_newFormalPair hv) fun q => .bind ?_ fun _ => .pure _
  refine resolves_updateGraph fun y hy => ⟨hy.function, fun w hw => ?_⟩
  rcases Parameters.of_contains_put hs hw with rfl | hw
  · exact hv
  · exact hy.formals w hw

theorem resolves_addFormal (hv : v.Within m) : Resolves given m (addFormal g v) :=
  resolves_addSlot (s := .own v) (Or.inl rfl) hv

theorem resolves_addFormalGlobal (hv : v.Within m) : Resolves given m (addFormalGlobal g v) :=
  resolves_addSlot (s := .global v) (Or.inr rfl) hv

theorem resolves_setVariadic {q : ParameterPair} : Resolves given m (setVariadic g q) := by
  refine .graph_bind fun y hy r hr => wp_require (fun p hp => ?_) fun _ => nofun
  obtain ⟨_, rfl⟩ := Parameters.setVariadic?_eq_some_iff.1 hp
  -- the variadic pair stands under no value
  have hset : Graph.Within { y with formals := y.formals.put .variadic q } m :=
    ⟨hy.function, hy.formals⟩
  exact resolves_putGraph hset r hr

theorem resolves_addDeclaredFormals {x : Function} (hf : f.Within m) (hx : x.Within m) :
    Resolves given m (addDeclaredFormals g f x) := by
  refine .bind (.forIn fun v hv _ => .bind (resolves_addFormal (hx.params v hv)) fun _ => .pure _)
    fun _ => .ite (fun _ => ?_) fun _ => .pure _
  exact .bind (resolves_newFormalPair hf) fun q => .bind resolves_addData fun _ =>
    resolves_setVariadic

/-! ## Actual parameters -/

theorem resolves_actuals : Resolves given m (actuals c) := .bind (.node nofun) fun _ => .pure _

theorem resolves_bind {formal : ParameterPair} (hv : v.Within m) (isGlobal : Bool) :
    Resolves given m (bind c h v formal isGlobal) := by
  have hpair : Resolves given m (actualPair c h v isGlobal) := by
    refine .bind resolves_actuals fun ps => ?_
    split
    · exact .pure _
    · refine .bind (resolves_addPair hv) fun _ => .bind resolves_actuals fun _ => ?_
      exact .bind (resolves_updateNode fun _ => rfl) fun _ => .pure _
  exact .bind hpair fun _ => .bind resolves_addData fun _ => resolves_addData

/-- The arguments of a call are read off its key. -/
theorem Maintains.arguments_bind {k : List ValueId → Work α} (hm : m.IsClosed)
    (hk : ∀ args, (∀ a ∈ args, a.Within m) → Resolves given m (k args)) :
    Resolves given m (Work.arguments m c >>= k) := by
  unfold arguments
  rw [bind_assoc]
  refine .node_bind fun x hx => ?_
  rw [bind_assoc]
  refine .ask_bind (hm.exists_operation hx) fun op? hop => ?_
  split
  · rename_i callee args
    exact hk args fun a ha => hop _ rfl a (List.mem_cons_of_mem _ ha)
  · exact fun _ _ => wp_throw_bind nofun

theorem resolves_bindActuals (hm : m.IsClosed) : Resolves given m (bindActuals m c g) := by
  refine .bind resolves_owner fun _ => .arguments_bind hm fun args ha => ?_
  refine .graph_bind fun y hy => .ask_bind (hm.answers.function _ hy.function) fun x hx => ?_
  refine .bind (.forIn fun p hp _ => ?_) fun _ => .pure _
  obtain ⟨v, q, isGlobal⟩ := p
  -- what is bound is an argument of the call or a parameter of the graph
  have hv : v.Within m := (mem_bindingsOf.1 ⟨isGlobal, hp⟩).within ha hy.formals
  exact .bind (resolves_bind hv isGlobal) fun _ => .pure _

/-! ## Propagation -/

/-- The heap objects among values are some of them. -/
theorem Maintains.heap_bind {l : List ValueId} {k : List ValueId → Work α}
    (hl : ∀ v ∈ l, v.Within m) (hk : ∀ l', (∀ v ∈ l', v.Within m) → Resolves given m (k l')) :
    Resolves given m ((l.filterM fun v => return !(← isArgument m v)) >>= k) := by
  intro r hr
  refine wp_bind (heapOf_spec (e := .standard m) fun v hv x hx => ?_) fun l' s hs => ?_
  · obtain ⟨y, hy⟩ := Module.exists_value (hl v hv)
    exact absurd (hy.symm.trans hx) nofun
  · obtain ⟨rfl, _, hiff⟩ := hs
    exact hk l' (fun v hv => hl v ((hiff v).1 hv).1) s hr

theorem resolves_absorbWith {propagate : GraphId → Work Unit}
    (hp : ∀ g, Resolves given m (propagate g)) : Resolves given m (absorbWith propagate m g h) := by
  refine .graph_bind fun y hy => .heap_bind (fun v hv => ?_) fun heap hheap => ?_
  · obtain ⟨q, hq⟩ := OrderedMap.mem_keys.1 hv
    exact hy.formals v (Parameters.contains_of_own hq)
  refine .bind (.forIn fun v hv _ => .bind (resolves_addFormalGlobal ?_) fun _ => .pure _)
    fun _ => ?_
  · obtain ⟨q, hq⟩ := OrderedMap.mem_keys.1 hv
    exact hy.formals v (Parameters.contains_of_global hq)
  refine .bind (.forIn fun v hv _ => .bind (resolves_addFormal (hheap v hv)) fun _ => .pure _)
    fun _ => ?_
  exact .ite (fun _ => .bind (.report _) fun _ => hp g) fun _ => .pure _

theorem resolves_propagateWithin (hm : m.IsClosed) (depth : Nat) (g : GraphId) :
    Resolves given m (propagateWithin m depth g) := by
  -- a caller that gets a new parameter hands it on, with less depth
  induction depth generalizing g with
  | zero => exact .throw nofun
  | succ depth ih =>
    refine .bind (.graph nofun) fun y => .bind (.forIn fun c _ _ => ?_) fun _ => .pure _
    refine .bind (.node nofun) fun x => ?_
    split
    · exact .bind (resolves_bindActuals hm) fun _ => .bind (resolves_absorbWith ih) fun _ => .pure _
    · exact .pure _

theorem resolves_propagate (hm : m.IsClosed) : Resolves given m (propagate m g) :=
  .bind .registry fun _ => resolves_propagateWithin hm _ g

theorem resolves_absorb (hm : m.IsClosed) : Resolves given m (absorb m g h) :=
  resolves_absorbWith fun _ => resolves_propagate hm

theorem resolves_discoverGlobal (hm : m.IsClosed) (hv : v.Within m) :
    Resolves given m (discoverGlobal m g v) :=
  .bind (resolves_addFormalGlobal hv) fun _ =>
    .ite (fun _ => .bind (.report _) fun _ => resolves_propagate hm) fun _ => .pure _

theorem resolves_discoverHeap (hm : m.IsClosed) (hv : v.Within m) :
    Resolves given m (discoverHeap m g v) :=
  .bind (resolves_addFormal hv) fun _ =>
    .ite (fun _ => .bind (.report _) fun _ => resolves_propagate hm) fun _ => .pure _

/-! ## Calls -/

theorem resolves_checkCall (hm : m.IsClosed) : Resolves given m (checkCall m c) := by
  refine .node_bind fun x hx => .ask_bind (hm.exists_operation hx) fun op? _ => ?_
  split
  · exact .pure _
  · exact .throw nofun

theorem resolves_addLink : Resolves given m (addLink c g) := by
  refine .node_bind fun x hx => .ite (fun _ => .pure _) fun _ => ?_
  have hlinked : NodeKey.Within m { x with callees := x.callees.insert g }.key := hx
  refine .bind (resolves_putNode hlinked) fun _ => .bind ?_ fun _ => .pure _
  exact resolves_updateGraph fun y hy => hy.of_eq rfl rfl

theorem resolves_settleLink (hm : m.IsClosed) : Resolves given m (settleLink m b c h g) :=
  .bind resolves_entry fun _ => .bind resolves_addControl fun _ => .bind resolves_updateUnit
    fun _ => .bind (resolves_absorb hm) fun _ => resolves_bindActuals hm

theorem resolves_linkCall (hm : m.IsClosed) (hf : f.Within m)
    (hreq : ∀ f, f.Within m → Resolves given m (request f)) :
    Resolves given m (linkCall request m b c f) := by
  refine .bind (resolves_checkCall hm) fun _ => ?_
  refine .bind resolves_owner fun h => .bind (hreq f hf) fun g => .bind resolves_addLink fun _ => ?_
  have hrest : Resolves given m (settleLink m b c h g) := resolves_settleLink hm
  refine .ite (fun _ => .ask_bind (hm.answers.function f hf) fun x _ => ?_) fun _ => hrest
  exact .bind (.report _) fun _ => hrest

theorem resolves_visitDirectCall (he : e.Answers given) (hv : v.Within e.program)
    (hf : f.Within e.program)
    (hreq : ∀ f, f.Within e.program → Resolves given e.program (request f)) :
    Resolves given e.program (visitDirectCall request e g b c v f) := by
  refine .ask_bind (he.closed.answers.function f hf) fun x _ => ?_
  refine .when (fun _ => resolves_modifyRegistry fun r hr => ⟨hr.graph, hr.node⟩) ?_
  refine .when (fun _ => resolves_linkCall he.closed hf hreq) ?_
  exact .ite (fun _ => .bind (.report _) fun _ => resolves_discoverHeap he.closed hv)
    fun _ => .pure _

theorem resolves_visitPointee {args : List ValueId} {p : Pointee} (hm : m.IsClosed)
    (hv : v.Within m) (ha : ∀ a ∈ args, a.Within m)
    (hp : given → p.isValid = true → p.target.Within m)
    (hreq : ∀ f, f.Within m → Resolves given m (request f)) :
    Resolves given m (visitPointee request m b c v args p) := by
  refine .ite (fun _ => .pure _) fun hvalid => ?_
  -- the first question tells whether the target is in range
  have hanswer : ∀ t, m.stripCasts p.target = .ok t → p.target.Within m ∧ t.Within m := by
    intro t ht
    have hin := Module.within_of_stripCasts ht
    obtain ⟨t', ht', htin⟩ := hm.answers.stripCasts _ hin
    rw [ht] at ht'
    cases ht'
    exact ⟨hin, htin⟩
  have hasked : given → ∃ t, m.stripCasts p.target = .ok t := by
    intro hgiven
    obtain ⟨t, ht, _⟩ := hm.answers.stripCasts _ (hp hgiven (by simpa using hvalid))
    exact ⟨t, ht⟩
  refine .ask_given_bind hasked hanswer fun t htin => ?_
  refine .ask_bind (hm.answers.asFunction t htin.2) fun f? hf => ?_
  cases f? with
  | some f =>
    refine .ask_bind (hm.answers.function f (hf f rfl)) fun x hx => ?_
    have hlink : ∀ fits : Bool, Resolves given m (if fits = true then do
        linkCall request m b c f
        pure fits
      else do
        report (.skipping x.name v)
        pure fits) := fun fits =>
      .ite (fun _ => .bind (resolves_linkCall hm (hf f rfl) hreq) fun _ => .pure _)
        fun _ => .bind (.report _) fun _ => .pure _
    refine .ite (fun _ => .bind (resolves_ask ?_) hlink) fun _ => .bind (.pure _) hlink
    obtain ⟨z, hz⟩ := Module.exists_value hv
    exact Module.exists_callFits_of_value hz (fun w hw => Module.exists_value (hx.params w hw))
      fun w hw => Module.exists_value (ha w hw)
  | none =>
    -- what is an alias of something else fails, but with a wording
    refine .bind (resolves_ask (Module.exists_value htin.1)) fun x => ?_
    exact .ite (fun _ => .bind (.throw nofun) fun _ => .pure _) fun _ => .pure _

theorem resolves_visitIndirectCall {callee : ValueId} {args : List ValueId} (he : e.Answers given)
    (hv : v.Within e.program) (ha : ∀ a ∈ args, a.Within e.program)
    (hreq : ∀ f, f.Within e.program → Resolves given e.program (request f)) :
    Resolves given e.program (visitIndirectCall request e g b c v callee args) := by
  unfold visitIndirectCall
  cases hp : e.pointsTo? with
  | none => exact .report _
  | some pointsTo =>
    refine .bind (.forIn fun p hmem _ => .bind ?_ fun _ => .pure _) fun _ => ?_
    · -- the target comes from outside
      refine resolves_visitPointee he.closed hv ha (fun hgiven => ?_) hreq
      exact he.pointsTo hgiven pointsTo hp callee p hmem
    · exact .ite (fun _ => .report _) fun _ => .pure _

theorem resolves_visitCall {callee : ValueId} {args : List ValueId} (he : e.Answers given)
    (hv : v.Within e.program) (hc : callee.Within e.program)
    (ha : ∀ a ∈ args, a.Within e.program)
    (hreq : ∀ f, f.Within e.program → Resolves given e.program (request f)) :
    Resolves given e.program (visitCall request e g b c v callee args) := by
  refine .bind (resolves_updateGraph fun y hy => hy.of_eq rfl rfl) fun _ => ?_
  refine .ask_bind (he.closed.answers.stripCasts callee hc) fun t ht => ?_
  refine .ask_bind (he.closed.answers.asFunction t ht) fun f? hf => ?_
  cases f? with
  | some f => exact resolves_visitDirectCall he hv (hf f rfl) hreq
  | none => exact resolves_visitIndirectCall he hv ha hreq

/-! ## Blocks -/

theorem resolves_visitAddress (hm : m.IsClosed) (hv : v.Within m) :
    Resolves given m (visitAddress m g v) := by
  refine .ask_bind (hm.answers.stripOffsets v hv) fun base hbase => ?_
  refine .bind (resolves_ask (hm.answers.isGlobal base hbase)) fun _ => ?_
  exact .ite (fun _ => resolves_discoverGlobal hm hbase) fun _ => .pure _

theorem resolves_addExit (kind : ExitKind) : Resolves given m (addExit g kind) := by
  refine .bind (resolves_updateGraph fun y hy => hy.of_eq rfl rfl) fun _ => ?_
  refine .graph_bind fun y hy => .bind (resolves_addUnitNode hy.function) fun _ => ?_
  exact .bind (resolves_updateGraph fun y hy => hy.of_eq rfl rfl) fun _ => .pure _

theorem resolves_visitReturn : Resolves given m (visitReturn g b n) := by
  have hedge : ∀ exit, Resolves given m (addControl n exit >>= fun _ =>
      addUnitEdge g (.block b) .exit exitLabel) :=
    fun _ => .bind resolves_addControl fun _ => resolves_addUnitEdge
  refine .bind (.graph nofun) fun y => ?_
  split
  · exact .bind (.pure _) hedge
  · exact .bind (resolves_addExit .returns) hedge

theorem resolves_visitInstruction {i : Instruction} (he : e.Answers given) (hv : v.Within e.program)
    (hi : i.Within e.program)
    (hreq : ∀ f, f.Within e.program → Resolves given e.program (request f)) :
    Resolves given e.program (visitInstruction request e g b n v i) := by
  have hops := hi.operands
  unfold visitInstruction
  cases hop : i.op with
  | call callee args =>
    rw [hop] at hops
    exact resolves_visitCall he hv (hops callee List.mem_cons_self)
      (fun a ha => hops a (List.mem_cons_of_mem _ ha)) hreq
  | load a =>
    rw [hop] at hops
    exact resolves_visitAddress he.closed (hops a List.mem_cons_self)
  | getElementPtr base _ _ =>
    rw [hop] at hops
    exact resolves_visitAddress he.closed (hops base List.mem_cons_self)
  | store value address =>
    rw [hop] at hops
    have haddress := hops address (List.mem_cons_of_mem _ List.mem_cons_self)
    exact .bind (resolves_visitAddress he.closed (hops value List.mem_cons_self))
      fun _ => resolves_visitAddress he.closed haddress
  | ret v? => exact resolves_visitReturn
  | _ => exact .pure _

theorem resolves_visitValue (he : e.Answers given) (hv : v.Within e.program)
    (hreq : ∀ f, f.Within e.program → Resolves given e.program (request f)) :
    Resolves given e.program (visitValue request e g b v) := by
  refine .bind (resolves_addUnitNode hv) fun n => ?_
  refine .ask_bind (he.closed.answers.instruction v hv) fun i? hi => ?_
  intro r hr
  refine wp_require (fun i hmem => wp_report ?_) fun _ => nofun
  exact resolves_visitInstruction he hv (hi i hmem) hreq r hr

/-- **Blocks.** The visit of a block in range asks for ids in range alone. -/
theorem resolves_visitBlock (he : e.Answers given) (hb : b.Within e.program)
    (hreq : ∀ f, f.Within e.program → Resolves given e.program (request f)) :
    Resolves given e.program (visitBlock request e g b) := by
  refine .ask_bind (he.closed.answers.block b hb) fun x hx => .when (fun _ => .throw nofun) ?_
  refine .bind (resolves_updateGraph fun y hy => hy.of_eq rfl rfl) fun _ => ?_
  refine .bind (.forIn fun v hv _ => .bind ?_ fun _ => .pure _) fun _ => .pure _
  exact resolves_visitValue he (hx.instructions v hv) hreq

theorem resolves_addSuccessors (hm : m.IsClosed) (hb : b.Within m) :
    Resolves given m (addSuccessors m g b) := by
  refine .ask_bind (hm.answers.successors b hb) fun l _ => .bind (.forIn fun p _ _ => ?_)
    fun _ => .pure _
  obtain ⟨s, position⟩ := p
  refine .when (fun _ => .throw nofun) (.bind (.graph nofun) fun y => ?_)
  refine .bind (.require fun _ => nofun) fun _ => ?_
  exact .bind resolves_addUnitEdge fun _ => .pure _

/-! ## Control -/

theorem resolves_deciders : Resolves given m (deciders g) := .bind (.graph nofun) fun _ => .pure _

theorem resolves_addScopeControls (he : e.Answers given) :
    Resolves given e.program (addScopeControls e g) := by
  refine .graph_bind fun y hy => .bind resolves_deciders fun us => .ite (fun _ => .pure _) ?_
  have hscopes := fun hgiven => he.scopes hgiven y.function hy.function
  refine fun _ => .bind (resolves_ask_given hscopes) fun scope => ?_
  refine .bind (.forIn fun p _ _ => .bind (.forIn fun c _ _ => ?_) fun _ => .pure _)
    fun _ => .pure _
  exact .bind resolves_addUnitControl fun _ => .pure _

theorem resolves_phiControlsOf (hm : m.IsClosed) : Resolves given m (phiControlsOf m g b n) := by
  refine .node_bind fun x hx => .ask_bind (hm.exists_operation hx) fun op? _ => ?_
  split
  · refine .bind (.graph nofun) fun y => .mapM fun p _ => ?_
    exact .bind (.require fun _ => nofun) fun _ => .pure _
  · exact .pure _

theorem resolves_addPhiControls (hm : m.IsClosed) : Resolves given m (addPhiControls m g) := by
  refine .bind (.graph nofun) fun y => .bind (.mapM fun p _ => ?_) fun edges => ?_
  · exact .bind (.mapM fun _ _ => resolves_phiControlsOf hm) fun _ => .pure _
  · exact .bind (.forIn fun p _ _ => .bind resolves_addControl fun _ => .pure _) fun _ => .pure _

theorem resolves_addLoopControls : Resolves given m (addLoopControls g) := by
  refine .bind resolves_deciders fun us => .bind (.forIn fun p _ _ => ?_) fun _ => .pure _
  exact .bind resolves_addUnitControl fun _ => .pure _

theorem resolves_addControls (he : e.Answers given) :
    Resolves given e.program (addControls e g) := by
  unfold addControls
  refine .when (fun _ => resolves_addScopeControls he) ?_
  refine .when (fun _ => resolves_addPhiControls he.closed) ?_
  exact .ite (fun _ => resolves_addLoopControls) fun _ => .pure _

/-! ## Builds -/

theorem resolves_firstNode {name : String} : Resolves given m (firstNode g name) :=
  .bind (.graph nofun) fun _ => .bind (.require fun _ => nofun) fun _ =>
    .bind (.require fun _ => nofun) fun _ => .pure _

theorem resolves_endBuild {entry : NodeId} {x : Function} (he : e.Answers given) :
    Resolves given e.program (endBuild e g entry x) := by
  refine .bind (resolves_addControls he) fun _ => .bind resolves_firstNode fun _ => ?_
  refine .bind resolves_addControl fun _ => ?_
  refine .bind (resolves_updateGraph fun y hy => hy.of_eq rfl rfl) fun _ => ?_
  exact .bind (.graph nofun) fun _ => .bind (.report _) fun _ => .pure _

theorem resolves_buildWith (he : e.Answers given)
    (hreq : ∀ f, f.Within e.program → Resolves given e.program (request f)) :
    Resolves given e.program (buildWith request e g) := by
  refine .graph_bind fun y hy => ?_
  refine .ask_bind (he.closed.answers.function _ hy.function) fun x hx => ?_
  refine .ite (fun _ => .pure _) fun _ => .bind (.report _) fun _ => ?_
  refine .bind (resolves_updateGraph fun y hy => hy.of_eq rfl rfl) fun _ => ?_
  refine .bind (resolves_addNode hx.value) fun entry => ?_
  refine .bind (resolves_updateGraph fun y hy => hy.of_eq rfl rfl) fun _ => ?_
  refine .bind (resolves_addDeclaredFormals hy.function hx) fun _ => ?_
  refine .bind (.forIn fun b hb _ => .bind (resolves_visitBlock he (hx.blocks b hb) hreq)
    fun _ => .pure _) fun _ => ?_
  refine .bind (resolves_updateGraph fun y hy => hy.of_eq rfl rfl) fun _ => ?_
  refine .bind (.forIn fun b hb _ => .bind (resolves_addSuccessors he.closed (hx.blocks b hb))
    fun _ => .pure _) fun _ => .bind (.graph nofun) fun _ => ?_
  -- what follows the blocks is written into both ways of the last choice
  have hend : Resolves given e.program (endBuild e g entry x) := resolves_endBuild he
  exact .ite (fun _ => .bind (resolves_addExit .unreachable) fun _ => hend) fun _ => hend

theorem resolves_requestWithin (he : e.Answers given) (depth : Nat) :
    ∀ f, f.Within e.program → Resolves given e.program (requestWithin e depth f) := by
  -- the build of a body asks for the functions that it calls, with less depth
  induction depth with
  | zero => exact fun _ _ => .throw nofun
  | succ depth ih =>
    intro f hf
    refine .bind .registry fun r => ?_
    split
    · exact .pure _
    · refine .bind (resolves_newGraph hf) fun g => .bind (resolves_buildWith he ih) fun built => ?_
      refine .ite (fun _ => ?_) fun _ => .bind (resolves_unref false) fun _ => .pure _
      refine .ask_bind (he.closed.answers.function f hf) fun x _ => ?_
      exact fun _ _ => wp_throw_bind nofun

/-- **Requests.** A request for a function in range asks for ids in range alone. -/
theorem resolves_request (he : e.Answers given) (hf : f.Within e.program) :
    Resolves given e.program (Work.request e f) :=
  resolves_requestWithin he _ f hf

theorem resolves_addGlobals (hm : m.IsClosed) : Resolves given m (addGlobals m) := by
  refine .bind (.forIn fun v hv _ => .bind .registry fun r => ?_) fun _ => .pure _
  refine .ite (fun _ => ?_) fun _ => .pure _
  refine .bind (resolves_newNode (hm.answers.globals v hv)) fun n => .bind ?_ fun _ => .pure _
  exact resolves_modifyRegistry fun r hr => ⟨hr.graph, hr.node⟩

theorem resolves_getOrBuild (he : e.Answers given) (hf : f.Within e.program) :
    Resolves given e.program (getOrBuild e f) :=
  .bind (resolves_addGlobals he.closed) fun _ => resolves_request he hf

/-- **Roots.** A root asks for ids in range alone, whatever it is called. -/
theorem resolves_constructRoot (he : e.Answers given) (name : String) :
    Resolves given e.program (constructRoot e name) := by
  unfold constructRoot
  split
  · exact .bind (.report _) fun _ => .pure _
  rename_i f hname
  -- a name is only found in the table
  have hf := he.closed.answers.functionNamed name f hname
  refine .bind (resolves_addGlobals he.closed) fun _ => .bind .registry fun r => ?_
  split
  · refine .bind (resolves_updateGraph fun y hy => hy.of_eq rfl rfl) fun _ => .pure _
  · refine .bind (.report _) fun _ => .bind (resolves_newGraph hf) fun g => ?_
    refine .bind (resolves_buildWith he fun f hf => resolves_request he hf) fun built => ?_
    refine .ite (fun _ => .bind .registry fun _ => .bind (.report _) fun _ => .pure _) fun _ => ?_
    exact .bind resolves_destroy fun _ => .pure _

end Work

end Sdg
