import Sdg.Build.Body
import Sdg.Build.Control
import Sdg.Proofs.Building.Linking

/-!
# Bodies

Visiting a body makes a parameter of its graph of every global that an instruction reaches and of
every heap object that a call makes, and links every call to what it may run. All else that is
entered while a body is visited lets the registry evolve and says nothing about parameters. A unit
comes with its first node, and the exit with its unit: so whenever a nested build looks at a graph
that is under way, all that its units name is there.

Main result:

* `visitBlock_spec` — after the visit of a block its instructions ask for no parameter and no link
  that is not there.
-/

namespace Sdg

namespace Work

open Registry

variable {e : Setup} {r : Registry} {c n : NodeId} {g h : GraphId} {f fn : FunctionId} {k : Nat}
  {v w : ValueId} {b : BlockId} {request : FunctionId → Work GraphId}

/-! ## Nodes -/

/-- A new indexed node, whose key was not in use. -/
theorem wp_indexNode {β : Type} {Q : β → Registry → Prop} {key : NodeKey}
    {block? : Option BlockKey} {k : NodeId → Work β}
    (h : ∀ y, r.graph? g = some y → y.index.get? key = none →
      wp Fault.Genuine (k r.nextNode) Q (r.giveNode g key block?)) :
    wp Fault.Genuine (newNode (.fresh key (some g) block?) >>= fun n =>
      indexNode g key n >>= fun _ => k n) Q r := by
  refine wp_newNode ?_
  unfold indexNode
  rw [bind_assoc]
  refine wp_graph (fun y hy => ?_) fun _ => nofun
  -- a key in use is a fault
  cases hkey : y.index.contains key with
  | true => exact wp_throw nofun
  | false =>
    simp only [Bool.false_eq_true, if_false, putGraph]
    refine wp_modifyRegistry ?_
    rw [reviseGraph_eq hy fun y => { y with index := y.index.insert key r.nextNode }]
    exact h y hy (OrderedMap.contains_eq_false_iff.1 hkey)

theorem Indexed.of_giveNode {y : Graph} {key : NodeKey} {block? : Option BlockKey}
    (hy : r.graph? g = some y) : Indexed (r.giveNode g key block?) g key r.nextNode := by
  refine ⟨.fresh key (some g) block?, { y with index := y.index.insert key r.nextNode }, ?_, rfl,
    rfl, ?_, ?_⟩
  · simp
  · simp [hy]
  · rw [OrderedMap.get?_insert, if_pos rfl]

/-- What was just indexed is held. -/
theorem holds_of_giveNode {y z : Graph} {key : NodeKey} {block? : Option BlockKey}
    (hy : r.graph? g = some y) (hz : (r.giveNode g key block?).graph? g = some z) :
    z.Holds r.nextNode := by
  have hindexed : Indexed (r.giveNode g key block?) g key r.nextNode := .of_giveNode hy
  obtain ⟨_, z', _, _, _, hz', hi⟩ := hindexed
  rw [hz] at hz'
  cases hz'
  exact ⟨key, hi⟩

theorem wp_addNode {β : Type} {Q : β → Registry → Prop} {key : NodeKey} {k : NodeId → Work β}
    (h : ∀ y, r.graph? g = some y → y.index.get? key = none →
      wp Fault.Genuine (k r.nextNode) Q (r.giveNode g key none)) :
    wp Fault.Genuine (addNode g key >>= k) Q r := by
  unfold addNode
  simp only [ownedNode_eq, bind_assoc, pure_bind]
  exact wp_indexNode h

/-- A new node at the end of a unit, which is there. -/
theorem wp_addUnitNode {β : Type} {Q : β → Registry → Prop} {key : NodeKey} {block : BlockKey}
    {k : NodeId → Work β}
    (h : ∀ y, r.graph? g = some y → y.index.get? key = none → wp Fault.Genuine (k r.nextNode) Q
      ((r.giveNode g key (some block)).reviseGraph g fun y =>
        y.modifyUnit block fun u => { u with nodes := u.nodes ++ [r.nextNode] })) :
    wp Fault.Genuine (addUnitNode g block key >>= k) Q r := by
  unfold addUnitNode
  simp only [ownedNode_eq, bind_assoc, pure_bind]
  exact wp_indexNode fun y hy hkey => wp_updateUnit fun _ _ _ _ => h y hy hkey

theorem addUnitNode_spec {key : NodeKey} {block : BlockKey} (hr : r.Orderly e.program) :
    wp Fault.Genuine (addUnitNode g block key)
      (fun n s => Evolves e r s ∧ Indexed s g key n) r := by
  refine wp_last (wp_addUnitNode fun y hy hkey => wp_pure ?_)
  have hnode : Evolves e r (r.giveNode g key (some block)) := .node hr hy hkey
  have happend := Evolves.dress (hnode.orderly hr) g (fun z => .modifyUnit z block
    fun u => { u with nodes := u.nodes ++ [r.nextNode] }) fun z hz hshaped =>
      hshaped.append (holds_of_giveNode hy hz)
  exact ⟨hnode.trans happend, (Indexed.of_giveNode hy).grows happend.grows⟩

/-! ## New units -/

/-- A new unit with its first node, and what both amount to once the node is there. -/
theorem reviseGraph_openUnit {block : BlockKey} {key : NodeKey} {f f' : Graph → Graph}
    (hf : ∀ y i, f' { f y with index := i } = { y with index := i }.openUnit block r.nextNode)
    (hi : ∀ y, (f y).index = y.index) :
    ((r.reviseGraph g f).giveNode g key (some block)).reviseGraph g f' =
      (r.giveNode g key (some block)).reviseGraph g fun y => y.openUnit block r.nextNode := by
  unfold giveNode
  rw [pushNode_reviseGraph, nextNode_reviseGraph]
  simp only [reviseGraph_reviseGraph]
  congr 1
  funext y
  rw [hf, hi]

/-- The unit of a block, up to the node of its first instruction. -/
theorem wp_openBlock {β : Type} {Q : β → Registry → Prop} {key : NodeKey} {k : NodeId → Work β}
    (h : ∀ y, r.graph? g = some y → y.index.get? key = none → wp Fault.Genuine (k r.nextNode) Q
      ((r.giveNode g key (some (.block b))).reviseGraph g fun y =>
        y.openUnit (.block b) r.nextNode)) :
    wp Fault.Genuine (updateGraph g (fun y =>
      { y with units := y.units.insert b (.fresh (.block b)) }) >>= fun _ =>
        addUnitNode g (.block b) key >>= k) Q r := by
  refine wp_updateGraph fun y hy => wp_addUnitNode fun y' hy' hkey => ?_
  rw [graph?_reviseGraph, if_pos rfl, hy] at hy'
  cases hy'
  rw [nextNode_reviseGraph, reviseGraph_openUnit]
  · exact h y hy hkey
  · intro y i
    simp only [Graph.modifyUnit, Graph.openUnit, OrderedMap.modify_insert]
    rfl
  · exact fun _ => rfl

/-- The exit in its unit. -/
theorem wp_addExit {β : Type} {Q : β → Registry → Prop} {kind : ExitKind} {k : NodeId → Work β}
    (h : ∀ y, r.graph? g = some y → y.index.get? (.exit y.function kind) = none →
      wp Fault.Genuine (k r.nextNode) Q ((r.giveNode g (.exit y.function kind)
        (some .exit)).reviseGraph g fun y => y.openUnit .exit r.nextNode)) :
    wp Fault.Genuine (addExit g kind >>= k) Q r := by
  unfold addExit
  simp only [bind_assoc, pure_bind]
  refine wp_updateGraph fun y hy => wp_graph (fun y' hy' => ?_) fun _ => nofun
  rw [graph?_reviseGraph, if_pos rfl, hy] at hy'
  cases hy'
  refine wp_addUnitNode fun y' hy' hkey => wp_updateGraph fun _ _ => ?_
  rw [graph?_reviseGraph, if_pos rfl, hy] at hy'
  cases hy'
  rw [nextNode_reviseGraph, reviseGraph_reviseGraph, reviseGraph_openUnit]
  · exact h y hy hkey
  · exact fun _ _ => rfl
  · exact fun _ => rfl

/-- A unit that was not there comes with its first node. -/
theorem evolves_openUnit {y : Graph} {key : NodeKey} {block : BlockKey} (hr : r.Orderly e.program)
    (hy : r.graph? g = some y) (hkey : y.index.get? key = none) (hnew : y.unit? block = none)
    (hfirst : ∀ b x v rest, block = .block b → e.program.block b = .ok x →
      x.instructions = v :: rest → key = .value v) :
    Evolves e r ((r.giveNode g key (some block)).reviseGraph g fun y =>
      y.openUnit block r.nextNode) := by
  have hnode : Evolves e r (r.giveNode g key (some block)) := .node hr hy hkey
  refine hnode.trans (.dress (hnode.orderly hr) g (fun z => .openUnit z block _) ?_)
  intro z hz hshaped
  have hheld := holds_of_giveNode hy hz
  rw [graph?_giveNode, if_pos rfl, hy] at hz
  cases hz
  refine hshaped.openUnit ?_ hheld fun b x v rest hb hx hv => ⟨r.nextNode, ?_⟩
  · -- the units are those of before
    cases block <;> exact hnew
  · rw [hfirst b x v rest hb hx hv, OrderedMap.get?_insert, if_pos rfl]

/-- The unit of a block whose first instruction has no node is not there. -/
theorem unit?_eq_none_of_first {y : Graph} {x : Block} {rest : List ValueId}
    (hr : r.Orderly e.program) (hy : r.graph? g = some y) (hx : e.program.block b = .ok x)
    (hv : x.instructions = v :: rest) (hkey : y.index.get? (.value v) = none) :
    y.unit? (.block b) = none := by
  cases hu : y.unit? (.block b) with
  | none => rfl
  | some u =>
    obtain ⟨n, hn⟩ := (hr.shaped g y hy).opened b u x v rest hu hx hv
    rw [hkey] at hn
    cases hn

/-! ## The exit and the edges between blocks -/

/-- An exit for a graph that has none. -/
theorem addExit_spec {y : Graph} (hr : r.Orderly e.program) (hy : r.graph? g = some y)
    (hnone : y.exitNode? = none) (kind : ExitKind) :
    wp Fault.Genuine (addExit g kind) (fun _ s => Evolves e r s) r := by
  refine wp_last (wp_addExit fun y' hy' hkey => wp_pure ?_)
  rw [hy] at hy'
  cases hy'
  refine evolves_openUnit hr hy hkey ?_ nofun
  -- the unit of the exit would have come with an exit
  cases hu : y.unit? .exit with
  | none => rfl
  | some u =>
    obtain ⟨n, hn⟩ := (hr.shaped g y hy).closed u hu
    rw [hnone] at hn
    cases hn

theorem evolving_visitReturn : Evolving e (visitReturn g b n) := by
  intro r hr
  unfold visitReturn
  refine wp_graph (fun y hy => ?_) fun _ => nofun
  have hrest : ∀ exit, Evolving e (addControl n exit >>= fun _ =>
      addUnitEdge g (.block b) .exit exitLabel) :=
    fun exit => .bind (.addControl n exit) fun _ => .addUnitEdge g _ _ _
  -- the exit is there, or it is made for this return
  cases hexit : y.exitNode? with
  | some exit => exact hrest exit r hr
  | none =>
    refine wp_bind (addExit_spec hr hy hexit .returns) fun exit s hs => ?_
    exact wp_mono (hrest exit s (hs.orderly hr)) fun _ _ ht => hs.trans ht

theorem evolving_addSuccessors : Evolving e (addSuccessors e.program g b) := by
  refine .bind (.ask _) fun l => .bind (.forIn ?_) fun _ => .pure _
  intro h _
  obtain ⟨s, position⟩ := h
  refine .when ?_ ?_
  · exact .throw nofun
  · refine .bind (.graph g) fun y => .bind (.require (by nofun) _) fun _ => ?_
    exact .bind (.addUnitEdge g _ _ _) fun _ => .pure _

/-! ## Control dependence -/

theorem evolving_deciders : Evolving e (deciders g) := .bind (.graph g) fun _ => .pure _

theorem evolving_addScopeControls : Evolving e (addScopeControls e g) := by
  refine .bind (.graph g) fun y => .bind evolving_deciders fun us => ?_
  split
  · exact .pure _
  · refine .bind (.ask _) fun scope => .bind (.forIn ?_) fun _ => .pure _
    intro h _
    obtain ⟨b, u⟩ := h
    refine .bind (.forIn fun c _ => ?_) fun _ => .pure _
    exact .bind (.addUnitControl g _ _) fun _ => .pure _

/-- Looking for the edges to a phi changes nothing. -/
theorem phiControlsOf_spec : wp Fault.Genuine (phiControlsOf e.program g b n)
    (fun _ s => s = r) r := by
  unfold phiControlsOf
  refine wp_node (fun x _ => wp_ask (fun op? _ => ?_) nofun) fun _ => nofun
  split
  · refine wp_graph (fun y _ => ?_) fun _ => nofun
    refine wp_mono (wp_mapM (P := fun _ => True) fun p _ => ?_) fun _ _ h => h.1
    exact wp_require (fun _ _ => wp_pure ⟨rfl, trivial⟩) fun _ => nofun
  · exact wp_pure rfl

theorem evolving_addPhiControls : Evolving e (addPhiControls e.program g) := by
  refine .bind (.graph g) fun y => .bind (.of_reads fun r => ?_) fun edges => ?_
  · refine wp_mono (wp_mapM (P := fun _ => True) fun p _ => ?_) fun _ _ h => h.1
    refine wp_bind (wp_mapM (P := fun _ => True) fun n _ =>
      wp_mono phiControlsOf_spec fun _ _ h => ⟨h, trivial⟩) ?_
    intro l s hpost
    obtain ⟨rfl, _⟩ := hpost
    exact wp_pure ⟨rfl, trivial⟩
  · refine .bind (.forIn ?_) fun _ => .pure _
    intro h _
    obtain ⟨a, b⟩ := h
    exact .bind (.addControl a b) fun _ => .pure _

theorem evolving_addLoopControls : Evolving e (addLoopControls g) := by
  refine .bind evolving_deciders fun us => .bind (.forIn ?_) fun _ => .pure _
  intro h _
  obtain ⟨b, u⟩ := h
  exact .bind (.addUnitControl g _ _) fun _ => .pure _

theorem evolving_addControls : Evolving e (addControls e g) := by
  unfold addControls
  refine .when evolving_addScopeControls ?_
  refine .when evolving_addPhiControls ?_
  split
  · exact evolving_addLoopControls
  · exact .pure _

/-! ## Instructions -/

/-- The graph has the parameters and links that the instruction `v` asks for. -/
structure Meets (e : Setup) (r : Registry) (g : GraphId) (v : ValueId) : Prop where
  touched : ∀ w, e.program.UsesGlobal v w → r.HasFormal g w
  allocated : e.IsAllocation v → r.HasFormal g v
  called : ∀ callee args, e.program.IsCallOf v callee args → r.Answers e g v

theorem Meets.grows {s : Registry} (hg : r.Grows s) (hk : r.Collects e s) (h : Meets e r g v) :
    Meets e s g v where
  touched w hw := (h.touched w hw).grows hg
  allocated ha := (h.allocated ha).grows hg
  called callee args hcall := (h.called callee args hcall).grows hg hk

/-- A global that the address `a` leads to is a parameter afterwards. -/
theorem visitAddress_spec {i : Instruction} {a : ValueId} (hr : r.Orderly e.program)
    (hg : r.Hosts g fn) (hv : e.program.InBody fn v)
    (hi : e.program.instruction? v = .ok (some i)) (ha : a ∈ i.op.addresses) :
    wp Fault.Genuine (visitAddress e.program g a) (fun _ s => Evolves e r s ∧
      ∀ w, e.program.stripOffsets a = .ok w → e.program.isGlobal w = .ok true →
        s.HasFormal g w) r := by
  unfold visitAddress
  refine wp_ask (fun base hbase => wp_ask (fun isGlobal hglobal => ?_) nofun) nofun
  -- only a global is made a parameter
  cases isGlobal with
  | false =>
    refine wp_pure ⟨.refl e r, fun w hw hwg => ?_⟩
    rw [hbase] at hw
    cases hw
    rw [hglobal] at hwg
    cases hwg
  | true =>
    have hreason : ∀ y, r.graph? g = some y → Reason e r g y (.global base) := by
      intro y hy
      have hy' := hg.function_eq hy
      exact .touched (hy' ▸ ⟨v, hv, i, a, hi, ha, hbase, hglobal⟩)
    refine wp_mono (discoverGlobal_spec hr hreason) ?_
    intro _ s hpost
    obtain ⟨hs, hhas⟩ := hpost
    refine ⟨.of_settles hr hs, fun w hw _ => ?_⟩
    rw [hbase] at hw
    cases hw
    exact hhas

/-- An instruction that is no call asks for the globals behind its addresses alone. -/
theorem Meets.of_addresses {i : Instruction} (hi : e.program.instruction? v = .ok (some i))
    (hno : ∀ callee args, i.op ≠ .call callee args)
    (ha : ∀ a ∈ i.op.addresses, ∀ w, e.program.stripOffsets a = .ok w →
      e.program.isGlobal w = .ok true → r.HasFormal g w) : Meets e r g v where
  touched w hw := by
    obtain ⟨i', a, hi', hmem, hstrip, hglobal⟩ := hw
    rw [hi] at hi'
    cases hi'
    exact ha a hmem w hstrip hglobal
  allocated hv := by
    obtain ⟨callee, args, _, _, ⟨i', hi', hop⟩, _⟩ := hv
    rw [hi] at hi'
    cases hi'
    exact absurd hop (hno callee args)
  called callee args hcall := by
    obtain ⟨i', hi', hop⟩ := hcall
    rw [hi] at hi'
    cases hi'
    exact absurd hop (hno callee args)

/-- An instruction with one address asks for nothing more once that was looked at. -/
theorem visitAddress_meets {i : Instruction} {a : ValueId} (hr : r.Orderly e.program)
    (hg : r.Hosts g fn) (hv : e.program.InBody fn v)
    (hi : e.program.instruction? v = .ok (some i)) (hno : ∀ callee args, i.op ≠ .call callee args)
    (ha : i.op.addresses = [a]) :
    wp Fault.Genuine (visitAddress e.program g a)
      (fun _ s => Evolves e r s ∧ Meets e s g v) r := by
  have hmem : a ∈ i.op.addresses := by simp [ha]
  refine wp_mono (visitAddress_spec hr hg hv hi hmem) ?_
  intro _ s hpost
  obtain ⟨hs, hhas⟩ := hpost
  refine ⟨hs, .of_addresses hi hno fun a' ha' => ?_⟩
  rw [ha] at ha'
  rw [List.mem_singleton.1 ha']
  exact hhas

/-- **Instructions.** After its visit an instruction asks for nothing that is not there. -/
theorem visitInstruction_spec {i : Instruction} (hreq : Requests e k request)
    (hr : r.Orderly e.program) (hk : r.pending e.program < k) (hn : Indexed r g (.value v) n)
    (hg : r.Hosts g fn) (hv : e.program.InBody fn v)
    (hi : e.program.instruction? v = .ok (some i)) :
    wp Fault.Genuine (visitInstruction request e g b n v i)
      (fun _ s => Evolves e r s ∧ Meets e s g v) r := by
  unfold visitInstruction
  -- each operation is visited for what it asks for, and asks for nothing else
  cases hop : i.op with
  | call callee args =>
    refine wp_mono (visitCall_spec hreq hr hk hn hg hv ⟨i, hi, hop⟩) ?_
    intro _ s hpost
    obtain ⟨hs, hhas, hanswers⟩ := hpost
    refine ⟨hs, ?_, hhas, fun _ _ _ => hanswers⟩
    -- a call uses no addresses
    intro w hpost
    obtain ⟨i', a, hi', hmem, _⟩ := hpost
    rw [hi] at hi'
    cases hi'
    rw [hop] at hmem
    cases hmem
  | load a => exact visitAddress_meets hr hg hv hi (by simp [hop]) (by rw [hop]; rfl)
  | getElementPtr base _ _ =>
    exact visitAddress_meets hr hg hv hi (by simp [hop]) (by rw [hop]; rfl)
  | store value address =>
    have hvalue : value ∈ i.op.addresses := by simp [hop, Operation.addresses]
    have haddr : address ∈ i.op.addresses := by simp [hop, Operation.addresses]
    refine wp_bind (visitAddress_spec hr hg hv hi hvalue) ?_
    intro _ s hpost
    obtain ⟨hs, hhas⟩ := hpost
    refine wp_mono (visitAddress_spec (hs.orderly hr) (hg.grows hs.grows) hv hi haddr) ?_
    intro _ t hpost
    obtain ⟨ht, hhas'⟩ := hpost
    refine ⟨hs.trans ht, .of_addresses hi (by simp [hop]) fun a ha w hw hwg => ?_⟩
    rw [hop] at ha
    -- the stored value, and the address
    rcases List.mem_cons.1 ha with rfl | ha
    · exact (hhas w hw hwg).grows ht.grows
    · rw [List.mem_singleton.1 ha] at hw
      exact hhas' w hw hwg
  | ret v? =>
    refine wp_mono (evolving_visitReturn r hr) fun _ s hs => ?_
    -- the exit asks for no parameter
    exact ⟨hs, .of_addresses hi (by simp [hop]) (by simp [hop, Operation.addresses])⟩
  | _ =>
    refine wp_pure ⟨.refl e r, ?_⟩
    exact .of_addresses hi (by simp [hop]) (by simp [hop, Operation.addresses])

/-- The visit of a value once its node is there. -/
def visitNode (request : FunctionId → Work GraphId) (e : Setup) (g : GraphId) (b : BlockId)
    (v : ValueId) (n : NodeId) : Work Unit := do
  let i ← require (.notInstruction v b) (← ask (e.program.instruction? v))
  report (.visiting n v i.op.name)
  visitInstruction request e g b n v i

theorem visitValue_eq : visitValue request e g b v =
    addUnitNode g (.block b) (.value v) >>= visitNode request e g b v := rfl

theorem visitNode_spec (hreq : Requests e k request) (hr : r.Orderly e.program)
    (hk : r.pending e.program < k) (hn : Indexed r g (.value v) n) (hg : r.Hosts g fn)
    (hv : e.program.InBody fn v) :
    wp Fault.Genuine (visitNode request e g b v n)
      (fun _ s => Evolves e r s ∧ Meets e s g v) r := by
  unfold visitNode
  refine wp_ask (fun i? hi => wp_require (fun i hi' => wp_report ?_) fun _ => nofun) nofun
  cases hi'
  exact visitInstruction_spec hreq hr hk hn hg hv hi

/-- The visit of a value whose node was made on the way from `r`. -/
theorem visitNode_after {s : Registry} (hreq : Requests e k request) (hr : r.Orderly e.program)
    (hk : r.pending e.program < k) (hg : r.Hosts g fn) (hv : e.program.InBody fn v)
    (hs : Evolves e r s) (hn : Indexed s g (.value v) n) :
    wp Fault.Genuine (visitNode request e g b v n)
      (fun _ s => Evolves e r s ∧ Meets e s g v) s := by
  refine wp_mono (visitNode_spec hreq (hs.orderly hr)
    (Nat.lt_of_le_of_lt (pending_mono hs.grows) hk) hn (hg.grows hs.grows) hv) ?_
  intro _ t hpost
  obtain ⟨ht, hmeets⟩ := hpost
  exact ⟨hs.trans ht, hmeets⟩

theorem visitValue_spec (hreq : Requests e k request) (hr : r.Orderly e.program)
    (hk : r.pending e.program < k) (hg : r.Hosts g fn) (hv : e.program.InBody fn v) :
    wp Fault.Genuine (visitValue request e g b v)
      (fun _ s => Evolves e r s ∧ Meets e s g v) r := by
  rw [visitValue_eq]
  refine wp_bind (addUnitNode_spec hr) ?_
  intro n s hpost
  obtain ⟨hs, hn⟩ := hpost
  exact visitNode_after hreq hr hk hg hv hs hn

/-- The visit of the first value of a block, which opens the unit of the block. -/
theorem openBlock_spec {y : Block} {rest : List ValueId} (hreq : Requests e k request)
    (hr : r.Orderly e.program) (hk : r.pending e.program < k) (hg : r.Hosts g fn)
    (hv : e.program.InBody fn v) (hy : e.program.block b = .ok y)
    (hl : y.instructions = v :: rest) :
    wp Fault.Genuine (updateGraph g (fun y =>
      { y with units := y.units.insert b (.fresh (.block b)) }) >>= fun _ =>
        visitValue request e g b v) (fun _ s => Evolves e r s ∧ Meets e s g v) r := by
  rw [visitValue_eq]
  refine wp_openBlock fun z hz hkey => ?_
  -- the unit comes with the node of the first instruction
  have hfirst : ∀ b' y' v' rest', BlockKey.block b = .block b' → e.program.block b' = .ok y' →
      y'.instructions = v' :: rest' → NodeKey.value v = .value v' := by
    intro b' y' v' rest' hb' hy' hl'
    cases hb'
    rw [hy] at hy'
    cases hy'
    rw [hl] at hl'
    cases hl'
    rfl
  -- a block whose first instruction has no node was not visited before
  have hnew := unit?_eq_none_of_first hr hz hy hl hkey
  refine visitNode_after hreq hr hk hg hv (evolves_openUnit hr hz hkey hnew hfirst) ?_
  have hindexed : Indexed (r.giveNode g (.value v) (some (.block b))) g (.value v) r.nextNode :=
    .of_giveNode hz
  exact hindexed.grows (.reviseGraph fun w _ => (Graph.SameCore.openUnit w _ _).grows)

/-- The visit of some values of a block, one after the other. -/
theorem visitValues_spec {l : List ValueId} (hreq : Requests e k request) (hr : r.Orderly e.program)
    (hk : r.pending e.program < k) (hg : r.Hosts g fn) (hl : ∀ v ∈ l, e.program.InBody fn v) :
    wp Fault.Genuine (forIn l PUnit.unit fun v _ => do
      visitValue request e g b v
      pure (.yield PUnit.unit)) (fun _ s => Evolves e r s ∧ ∀ v ∈ l, Meets e s g v) r := by
  refine wp_forIn (fun done _ s => Evolves e r s ∧ ∀ v ∈ done, Meets e s g v)
    ⟨.refl e r, nofun⟩ ?_
  intro done v rest _ s hsplit hpost
  obtain ⟨hs, hdone⟩ := hpost
  refine wp_bind (visitValue_spec hreq (hs.orderly hr)
    (Nat.lt_of_le_of_lt (pending_mono hs.grows) hk) (hg.grows hs.grows)
    (hl v (mem_of_split hsplit))) ?_
  intro _ t hpost
  obtain ⟨ht, hmeets⟩ := hpost
  refine wp_pure ⟨_, rfl, hs.trans ht, fun w hw => ?_⟩
  -- what was met before is met still
  rcases List.mem_append.1 hw with hw | hw
  · exact (hdone w hw).grows ht.grows ht.collects
  · rw [List.mem_singleton.1 hw]
    exact hmeets

/-- **Blocks.** After the visit of a block none of its instructions asks for anything that is not
there. -/
theorem visitBlock_spec {x : Function} (hreq : Requests e k request) (hr : r.Orderly e.program)
    (hk : r.pending e.program < k) (hg : r.Hosts g fn) (hx : e.program.function fn = .ok x)
    (hb : b ∈ x.blocks) :
    wp Fault.Genuine (visitBlock request e g b) (fun _ s => Evolves e r s ∧
      ∀ y, e.program.block b = .ok y → ∀ v ∈ y.instructions, Meets e s g v) r := by
  unfold visitBlock
  refine wp_ask (fun y hy => ?_) nofun
  have hbody : ∀ v ∈ y.instructions, e.program.InBody fn v :=
    fun v hv => ⟨x, b, y, hx, hb, hy, hv⟩
  cases hl : y.instructions with
  | nil =>
    -- a block without instructions is a fault
    exact wp_throw_bind nofun
  | cons v rest =>
    rw [hl] at hbody
    simp only [List.isEmpty_cons, Bool.false_eq_true, if_false, List.forIn_cons, bind_assoc]
    rw [← bind_assoc]
    -- the unit and the node of the first instruction come together
    refine wp_bind (openBlock_spec hreq hr hk hg (hbody v List.mem_cons_self) hy hl) ?_
    intro _ s hpost
    obtain ⟨hs, hmeets⟩ := hpost
    rw [pure_bind]
    refine wp_bind (visitValues_spec hreq (hs.orderly hr)
      (Nat.lt_of_le_of_lt (pending_mono hs.grows) hk) (hg.grows hs.grows)
      fun w hw => hbody w (List.mem_cons_of_mem _ hw)) ?_
    intro _ t hpost
    obtain ⟨ht, hrest⟩ := hpost
    refine wp_pure ⟨hs.trans ht, fun y' hy' w hw => ?_⟩
    rw [hy] at hy'
    cases hy'
    rw [hl] at hw
    rcases List.mem_cons.1 hw with rfl | hw
    · exact hmeets.grows ht.grows ht.collects
    · exact hrest w hw

end Work

end Sdg
