import Sdg.Build.Control
import Sdg.Proofs.Building.Bodies
import Sdg.Proofs.Control.Parameters
import Sdg.Proofs.Safety.Underway

/-!
# Control edges of bodies

While the body of a graph is visited it may get nodes, but asks for none of the edges that are
worked out in the end. A return gets its edge to the exit at once. When all blocks were visited the
body is complete, and then the edges to phis are those that it asks for.

Main results:

* `visitBlock_wired` — the visit of a block keeps the control edges right;
* `addPhiControls_wired` — afterwards every phi is controlled as the body asks.
-/

namespace Sdg

open Registry

/-- The node `n` stands for the value `v` in the block `b` of the graph `g`. -/
def Registry.Stands (r : Registry) (g : GraphId) (b : BlockId) (v : ValueId) (n : NodeId) : Prop :=
  ∃ y u x, r.graph? g = some y ∧ y.unit? (.block b) = some u ∧ n ∈ u.nodes ∧ r.node? n = some x ∧
    x.key = .value v

theorem Registry.Stands.follows {r s : Registry} {g : GraphId} {b : BlockId} {v : ValueId}
    {n : NodeId} {B : Set GraphId} (hk : Follows B r s) (h : r.Stands g b v n) :
    s.Stands g b v n := by
  obtain ⟨y, u, x, hy, hu, hn, hx, hv⟩ := h
  obtain ⟨z, hz, hyz, _⟩ := hk.exists_graph hy
  obtain ⟨w, hw, hnw⟩ := hyz.nodes b u n hu hn
  obtain ⟨x', hx', hxx⟩ := hk.grows.node n x hx
  exact ⟨z, w, x', hz, hw, hnw, hx', hxx.key.trans hv⟩

namespace Graph

variable {y : Graph} {b : BlockId} {n : NodeId} {key : NodeKey}

/-- An indexed node more hides none. -/
theorem exists_index_insert {j : NodeKey} (h : ∃ k, y.index.get? j = some k) (key : NodeKey)
    (n : NodeId) : ∃ k, (y.index.insert key n).get? j = some k := by
  rw [OrderedMap.get?_insert]
  split
  · exact ⟨n, rfl⟩
  · exact h

theorem Keeps.append (y : Graph) (i : OrderedMap NodeKey NodeId) (k : BlockKey) (n : NodeId) :
    y.Keeps ({ y with index := i }.modifyUnit k fun u => { u with nodes := u.nodes ++ [n] }) := by
  refine ⟨fun i hi => by simpa using hi, fun i hi => by simpa using hi, fun b u i hu hi => ?_⟩
  rw [unit?_modifyUnit, unit?_index, hu]
  split
  · exact ⟨_, rfl, List.mem_append_left _ hi⟩
  · exact ⟨u, rfl, hi⟩

/-- A unit that was not there takes no place. -/
theorem Keeps.openUnit {k : BlockKey} (i : OrderedMap NodeKey NodeId) (n : NodeId)
    (hk : y.unit? k = none) (hexit : k = .exit → y.exitNode? = none) :
    y.Keeps ({ y with index := i }.openUnit k n) := by
  refine ⟨fun j hj => by simpa using hj, fun j hj => ?_, fun b u j hu hj => ?_⟩
  · rw [exitNode?_openUnit]
    split
    · rename_i he
      rw [hexit he] at hj
      cases hj
    · exact hj
  · rw [unit?_openUnit, unit?_index, if_neg]
    · exact ⟨u, hu, hj⟩
    · intro hb
      rw [hb, hk] at hu
      cases hu

end Graph

namespace Registry

variable {m : Module} {r : Registry} {g : GraphId} {y : Graph} {key : NodeKey} {block : BlockKey}

/-- A new node of a unit belongs to it. -/
theorem sits_nextNode {f : Graph → Graph} :
    ((r.giveNode g key (some block)).reviseGraph g f).Sits r.nextNode (some block) :=
  ⟨_, by rw [node?_reviseGraph, node?_giveNode, if_pos rfl], rfl⟩

/-- A node that is put at the end of a unit has its place there. -/
theorem Seated.append (h : r.Seated m y)
    (hg : r.Grows ((r.giveNode g key (some block)).reviseGraph g
      fun y => y.modifyUnit block fun u => { u with nodes := u.nodes ++ [r.nextNode] })) :
    ((r.giveNode g key (some block)).reviseGraph g fun y =>
      y.modifyUnit block fun u => { u with nodes := u.nodes ++ [r.nextNode] }).Seated m
        ({ y with index := y.index.insert key r.nextNode }.modifyUnit block
          fun u => { u with nodes := u.nodes ++ [r.nextNode] }) where
  nodes k w hw n hn := by
    rw [Graph.unit?_modifyUnit, Graph.unit?_index] at hw
    split at hw
    · rename_i hk
      obtain ⟨u, hu, rfl⟩ := Option.map_eq_some_iff.1 hw
      rcases List.mem_append.1 hn with hn | hn
      · exact (h.nodes k u hu n hn).grows hg
      · rw [List.mem_singleton.1 hn, hk]
        exact sits_nextNode
    · exact (h.nodes k w hw n hn).grows hg
  opened b w x v rest hw hx hv := by
    obtain ⟨u, hu, _⟩ := Graph.exists_unit_of_modifyUnit hw
    rw [Graph.index_modifyUnit]
    exact Graph.exists_index_insert (h.opened b u x v rest (Graph.unit?_index y _ _ ▸ hu) hx hv) _ _
  entry n hn := (h.entry n (by simpa using hn)).grows hg
  exit n hn := (h.exit n (by simpa using hn)).grows hg
  start b hb := by cases block <;> exact h.start b hb

/-- So has the first node of a unit, if it is the one that the unit begins with. -/
theorem Seated.openUnit (h : r.Seated m y) (hg : r.Grows ((r.giveNode g key
      (some block)).reviseGraph g fun y => y.openUnit block r.nextNode))
    (hfirst : ∀ b x v rest, block = .block b → m.block b = .ok x → x.instructions = v :: rest →
      key = .value v) :
    ((r.giveNode g key (some block)).reviseGraph g fun y => y.openUnit block r.nextNode).Seated m
      ({ y with index := y.index.insert key r.nextNode }.openUnit block r.nextNode) where
  nodes k w hw n hn := by
    rw [Graph.unit?_openUnit, Graph.unit?_index] at hw
    split at hw
    · rename_i hk
      cases hw
      rw [List.mem_singleton.1 hn, hk]
      exact sits_nextNode
    · exact (h.nodes k w hw n hn).grows hg
  opened b w x v rest hw hx hv := by
    rw [Graph.unit?_openUnit, Graph.unit?_index] at hw
    rw [Graph.index_openUnit]
    split at hw
    · -- a new unit begins with the node of its first value, which is in the index by now
      rename_i hb
      rw [hfirst b x v rest hb.symm hx hv]
      exact ⟨r.nextNode, (OrderedMap.get?_insert _ _ _ _).trans (if_pos rfl)⟩
    · exact Graph.exists_index_insert (h.opened b w x v rest hw hx hv) _ _
  entry n hn := (h.entry n (by simpa using hn)).grows hg
  exit n hn := by
    rw [Graph.exitNode?_openUnit] at hn
    split at hn
    · rename_i hk
      cases hn
      rw [← hk]
      exact sits_nextNode
    · exact (h.exit n hn).grows hg
  start b hb := by cases block <;> exact h.start b hb

end Registry

namespace Work

variable {e : Setup} {r₀ r : Registry} {B G : Set GraphId} {n : NodeId} {g : GraphId} {v : ValueId}
  {b : BlockId} {y : Graph} {request : FunctionId → Work GraphId}

/-! ## The exit -/

theorem wired_addUnitEdge {a b : BlockKey} {label : Nat} :
    Maintains Fault.Any (WiredFrom e r₀ B G) (addUnitEdge g a b label) := by
  refine maintains_wired fun r hr => wp_last (wp_addUnitEdge fun y _ _ hy _ _ => wp_pure ?_)
  have hs := Graph.SameNodes.lead y a b label
  exact hr.dress hy hs (Graph.SameCore.lead y a b label).grows
    (Graph.SameCore.lead y a b label).formals

/-- The exit of an open body that has none. -/
theorem addExit_wired (hr : r.Wired e.program e.settings.phiControl B G) (hg : g ∈ B)
    (hy : r.graph? g = some y) (hnone : y.exitNode? = none) (kind : ExitKind) :
    wp Fault.Genuine (addExit g kind) (fun exit s => WiredFrom e r B G s ∧
      ∃ z, s.graph? g = some z ∧ z.exitNode? = some exit) r := by
  refine wp_last (wp_addExit fun y' hy' hkey => wp_pure ?_)
  rw [hy] at hy'
  cases hy'
  have hcore := fun z : Graph => Graph.SameCore.openUnit z .exit r.nextNode
  have hgrows : r.Grows ((r.giveNode g (.exit y.function kind) (some .exit)).reviseGraph g fun y =>
      y.openUnit .exit r.nextNode) :=
    (Grows.giveNode hy hkey _).trans (.reviseGraph fun z _ => (hcore z).grows)
  -- the unit of the exit is opened with the exit, whatever there was
  have hkeeps : y.Keeps ({ y with index := y.index.insert (.exit y.function kind) r.nextNode
      }.openUnit .exit r.nextNode) := by
    refine ⟨fun j hj => hj, fun j hj => ?_, fun b u j hu hj => ?_⟩
    · rw [hnone] at hj
      cases hj
    · exact ⟨u, hu, hj⟩
  refine ⟨hr.giveNode hg hy hkey hcore (fun z => by simp) hkeeps
    ((hr.seated g y hy).openUnit hgrows nofun), _, graph?_giveNode_revised hy, rfl⟩

/-- A return controls the exit, which is made for the first one. -/
theorem visitReturn_wired {i : Instruction} {v? : Option ValueId}
    (hr : r.Wired e.program e.settings.phiControl B G) (hg : g ∈ B) (hn : r.Stands g b v n)
    (hi : e.program.instruction? v = .ok (some i)) (hop : i.op = .ret v?) :
    wp Fault.Any (visitReturn g b n) (fun _ s => WiredFrom e r B G s) r := by
  -- what follows is the same for an exit that was there and for a new one
  have hrest : ∀ (exit : NodeId) (s : Registry), WiredFrom e r B G s →
      (∃ z, s.graph? g = some z ∧ z.exitNode? = some exit) →
      wp Fault.Any (addControl n exit >>= fun _ => addUnitEdge g (.block b) .exit exitLabel)
        (fun _ t => WiredFrom e r B G t) s := by
    intro exit s hs hexit
    obtain ⟨z, hz, hzx⟩ := hexit
    obtain ⟨z', u, x, hz', hu, hnu, hx, hxv⟩ := hn.follows hs.1.toFollows
    rw [hz] at hz'
    cases hz'
    have hret : e.program.operation? x.key = .ok (some (.ret v?)) := by
      rw [hxv, Module.operation?_of_instruction? hi, hop]
    refine wp_bind (wp_fault (addControl_wired hs.2 (Or.inl (.ret hz hu hnu hx hret hzx)))
      fun _ _ => trivial) fun _ t ht => ?_
    exact wired_addUnitEdge t ⟨hs.1.trans ht.1, ht.2⟩
  unfold visitReturn
  refine wp_graph (fun y hy => ?_) fun _ => trivial
  cases hexit : y.exitNode? with
  | some exit => exact hrest exit r ⟨.refl r, hr⟩ ⟨y, hy, hexit⟩
  | none =>
    exact wp_bind (wp_fault (addExit_wired hr hg hy hexit .returns) fun _ _ => trivial)
      fun exit s hs => hrest exit s hs.1 hs.2

/-! ## Instructions and blocks -/

theorem visitInstruction_wired {i : Instruction}
    (hreq : ∀ f, Maintains Fault.Any (WiredFrom e r₀ B G) (request f))
    (hr : WiredFrom e r₀ B G r) (hg : g ∈ B) (hn : r.Stands g b v n)
    (hi : e.program.instruction? v = .ok (some i)) :
    wp Fault.Any (visitInstruction request e g b n v i) (fun _ s => WiredFrom e r₀ B G s) r := by
  unfold visitInstruction
  cases hop : i.op with
  | call callee args => exact wired_visitCall hreq r hr
  | load a => exact wired_visitAddress r hr
  | getElementPtr base _ _ => exact wired_visitAddress r hr
  | store value address =>
    exact Maintains.bind wired_visitAddress (fun _ => wired_visitAddress) r hr
  | ret v? =>
    refine wp_mono (visitReturn_wired hr.2 hg hn hi hop) ?_
    intro _ s hs
    exact ⟨hr.1.trans hs.1, hs.2⟩
  | _ => exact wp_pure hr

theorem visitNode_wired (hreq : ∀ f, Maintains Fault.Any (WiredFrom e r₀ B G) (request f))
    (hr : WiredFrom e r₀ B G r) (hg : g ∈ B) (hn : r.Stands g b v n) :
    wp Fault.Any (visitNode request e g b v n) (fun _ s => WiredFrom e r₀ B G s) r := by
  unfold visitNode
  refine wp_ask (fun i? hi => wp_require (fun i hi' => wp_report ?_) fun _ => trivial)
    fun _ _ => trivial
  cases hi'
  exact visitInstruction_wired hreq hr hg hn hi

/-- A value of an open body, after the first one of its block. -/
theorem wired_visitValue (hreq : ∀ f, Maintains Fault.Any (WiredFrom e r₀ B G) (request f))
    (hg : g ∈ B) : Maintains Fault.Any (WiredFrom e r₀ B G) (visitValue request e g b v) := by
  intro r hr
  rw [visitValue_eq]
  refine wp_bind (P := fun n s => WiredFrom e r₀ B G s ∧ s.Stands g b v n) ?_ fun n s hs =>
    visitNode_wired hreq hs.1 hg hs.2
  obtain ⟨y, hy⟩ := hr.2.live g (hr.2.within hg)
  refine wp_last (wp_addUnitNode_live hy (fun u hkey hu => wp_pure ?_) (fun _ => trivial)
    fun _ => trivial)
  have hcore := fun z : Graph => Graph.SameCore.modifyUnit z (.block b)
    fun u => { u with nodes := u.nodes ++ [r.nextNode] }
  have hgrows : r.Grows ((r.giveNode g (.value v) (some (.block b))).reviseGraph g fun y =>
      y.modifyUnit (.block b) fun u => { u with nodes := u.nodes ++ [r.nextNode] }) :=
    (Grows.giveNode hy hkey _).trans (.reviseGraph fun z _ => (hcore z).grows)
  obtain ⟨hk, hw⟩ := hr.2.giveNode hg hy hkey hcore (fun z => by simp) (.append y _ _ _)
    ((hr.2.seated g y hy).append hgrows)
  refine ⟨⟨hr.1.trans hk, hw⟩, _, { u with nodes := u.nodes ++ [r.nextNode] },
    .fresh (.value v) (some g) (some (.block b)), graph?_giveNode_revised hy, ?_, ?_, ?_, rfl⟩
  · rw [Graph.unit?_modifyUnit, if_pos rfl, Graph.unit?_index, hu]
    rfl
  · exact List.mem_append_right _ (List.mem_singleton_self _)
  · rw [node?_reviseGraph, node?_giveNode, if_pos rfl]

/-- The first value of a block, which opens the unit of the block. -/
theorem openBlock_wired {x : Block} {rest : List ValueId}
    (hreq : ∀ f, Maintains Fault.Any (WiredFrom e r₀ B G) (request f))
    (hr : WiredFrom e r₀ B G r) (hg : g ∈ B) (hx : e.program.block b = .ok x)
    (hl : x.instructions = v :: rest) :
    wp Fault.Any (updateGraph g (fun y =>
      { y with units := y.units.insert b (.fresh (.block b)) }) >>= fun _ =>
        visitValue request e g b v) (fun _ s => WiredFrom e r₀ B G s) r := by
  rw [visitValue_eq]
  -- the block gets its unit, and the value its node in it
  have hopen : wp Fault.Genuine (updateGraph g (fun y =>
      { y with units := y.units.insert b (.fresh (.block b)) }) >>= fun _ =>
        addUnitNode g (.block b) (.value v))
      (fun n s => WiredFrom e r₀ B G s ∧ s.Stands g b v n) r := by
    refine wp_last ?_
    rw [bind_assoc]
    refine wp_openBlock fun y hy hkey => wp_pure ?_
    have hcore := fun z : Graph => Graph.SameCore.openUnit z (.block b) r.nextNode
    have hgrows : r.Grows ((r.giveNode g (.value v) (some (.block b))).reviseGraph g fun y =>
        y.openUnit (.block b) r.nextNode) :=
      (Grows.giveNode hy hkey _).trans (.reviseGraph fun z _ => (hcore z).grows)
    -- a block whose first instruction has no node was not visited before
    have hnew : y.unit? (.block b) = none := by
      cases hu : y.unit? (.block b) with
      | none => rfl
      | some u =>
        obtain ⟨n, hn⟩ := (hr.2.seated g y hy).opened b u x v rest hu hx hl
        rw [hkey] at hn
        cases hn
    have hfirst : ∀ b' x' v' rest', BlockKey.block b = .block b' →
        e.program.block b' = .ok x' → x'.instructions = v' :: rest' →
          NodeKey.value v = .value v' := by
      intro b' x' v' rest' hb' hx' hl'
      cases hb'
      rw [hx] at hx'
      cases hx'
      rw [hl] at hl'
      cases hl'
      rfl
    obtain ⟨hk, hw⟩ := hr.2.giveNode hg hy hkey hcore (fun z => by simp)
      (.openUnit _ _ hnew nofun) ((hr.2.seated g y hy).openUnit hgrows hfirst)
    refine ⟨⟨hr.1.trans hk, hw⟩, _, .single (.block b) r.nextNode,
      .fresh (.value v) (some g) (some (.block b)), graph?_giveNode_revised hy, ?_, ?_, ?_, rfl⟩
    · rw [Graph.unit?_openUnit, if_pos rfl]
    · exact List.mem_singleton_self _
    · rw [node?_reviseGraph, node?_giveNode, if_pos rfl]
  rw [← bind_assoc]
  exact wp_bind (wp_fault hopen fun _ _ => trivial) fun n s hs =>
    visitNode_wired hreq hs.1 hg hs.2

/-- **Blocks.** The visit of a block of an open body keeps the control edges right. -/
theorem wired_visitBlock (hreq : ∀ f, Maintains Fault.Any (WiredFrom e r₀ B G) (request f))
    (hg : g ∈ B) : Maintains Fault.Any (WiredFrom e r₀ B G) (visitBlock request e g b) := by
  intro r hr
  unfold visitBlock
  refine wp_ask (fun x hx => ?_) fun _ _ => trivial
  cases hl : x.instructions with
  | nil =>
    -- a block without instructions is a fault
    exact wp_throw_bind trivial
  | cons v rest =>
    simp only [List.isEmpty_cons, Bool.false_eq_true, if_false, List.forIn_cons, bind_assoc]
    rw [← bind_assoc]
    refine wp_bind (openBlock_wired hreq hr hg hx hl) fun _ s hs => ?_
    rw [pure_bind]
    exact Maintains.bind (.forIn fun v _ _ => .bind (wired_visitValue hreq hg) fun _ => .pure _)
      (fun _ => .pure _) s hs

theorem wired_addSuccessors :
    Maintains Fault.Any (WiredFrom e r₀ B G) (addSuccessors e.program g b) := by
  refine .bind (.ask fun _ _ => trivial) fun l => .bind (.forIn fun p _ _ => ?_) fun _ => .pure _
  obtain ⟨s, position⟩ := p
  refine .when (fun _ => .throw trivial) (.bind (.graph trivial) fun y => ?_)
  refine .bind (.require fun _ => trivial) fun _ => ?_
  exact .bind wired_addUnitEdge fun _ => .pure _

/-! ## Control -/

theorem wired_addUnitControl {a b : BlockKey} :
    Maintains Fault.Any (WiredFrom e r₀ B G) (addUnitControl g a b) := by
  refine maintains_wired fun r hr => wp_last (wp_addUnitControl fun y _ _ hy _ _ => wp_pure ?_)
  have hs := Graph.SameNodes.govern y a b
  exact hr.dress hy hs (Graph.SameCore.govern y a b).grows
    (Graph.SameCore.govern y a b).formals

theorem wired_deciders : Maintains Fault.Any (WiredFrom e r₀ B G) (deciders g) :=
  .bind (.graph trivial) fun _ => .pure _

theorem wired_addScopeControls :
    Maintains Fault.Any (WiredFrom e r₀ B G) (addScopeControls e g) := by
  refine .bind (.graph trivial) fun y => .bind wired_deciders fun us => .ite (fun _ => .pure _) ?_
  refine fun _ => .bind (.ask fun _ _ => trivial) fun scope => ?_
  refine .bind (.forIn fun p _ _ => .bind (.forIn fun c _ _ => ?_) fun _ => .pure _)
    fun _ => .pure _
  exact .bind wired_addUnitControl fun _ => .pure _

theorem wired_addLoopControls : Maintains Fault.Any (WiredFrom e r₀ B G) (addLoopControls g) := by
  refine .bind wired_deciders fun us => .bind (.forIn fun p _ _ => ?_) fun _ => .pure _
  exact .bind wired_addUnitControl fun _ => .pure _

/-- The edges to a phi are those from the blocks that flow into it. -/
theorem phiControlsOf_edges (hy : r.graph? g = some y) :
    wp Fault.Genuine (phiControlsOf e.program g b n) (fun l s => s = r ∧
      ∀ p, p ∈ l ↔ p.2 = n ∧ r.FlowsInto e.program y b p.1 n) r := by
  unfold phiControlsOf
  refine wp_node (fun x hx => wp_ask (fun op? hop => ?_) nofun) fun _ => nofun
  split
  · rename_i incoming
    refine wp_graph_live hy ?_
    refine wp_mono (wp_mapM_rel (R := fun i p => p.2 = n ∧ ∃ w, y.unit? (.block i.2) = some w ∧
      w.last? = some p.1) fun i _ => ?_) ?_
    · refine wp_require (fun last hlast => wp_pure ⟨rfl, rfl, ?_⟩) fun _ => nofun
      exact Option.bind_eq_some_iff.1 hlast
    · intro l s hpost
      obtain ⟨rfl, hsound, hall⟩ := hpost
      refine ⟨rfl, fun p => ⟨fun hp => ?_, fun hp => ?_⟩⟩
      · obtain ⟨i, hi, hpn, w, hw, hlast⟩ := hsound p hp
        -- a block that flows into itself was left out
        obtain ⟨hi, hne⟩ := List.mem_filter.1 hi
        exact ⟨hpn, x, incoming, i.1, i.2, w, hx, hop, hi, by simpa using hne, hw, hlast⟩
      · obtain ⟨hpn, x', incoming', v, k, w, hx', hop', hmem, hne, hw, hlast⟩ := hp
        rw [hx] at hx'
        cases hx'
        rw [hop] at hop'
        cases hop'
        obtain ⟨p', hp', hpn', w', hw', hlast'⟩ := hall (v, k)
          (List.mem_filter.2 ⟨hmem, by simpa using hne⟩)
        rw [hw] at hw'
        cases hw'
        rw [hlast] at hlast'
        have hpp : p = p' := Prod.ext (Option.some.inj hlast') (hpn.trans hpn'.symm)
        rwa [hpp]
  · rename_i hno
    -- nothing flows into what is no phi
    refine wp_pure ⟨rfl, fun p => ⟨nofun, fun hp => ?_⟩⟩
    obtain ⟨_, x', incoming, _, _, _, hx', hop', _⟩ := hp
    rw [hx] at hx'
    cases hx'
    rw [hop] at hop'
    exact absurd (Except.ok.inj hop') (hno incoming)

/-- **Phis.** Afterwards every phi of a complete body is controlled as the body asks. -/
theorem addPhiControls_wired (hr : r.Wired e.program e.settings.phiControl B G) (hg : g ∉ B)
    (hphi : e.settings.phiControl = true) :
    wp Fault.Genuine (addPhiControls e.program g) (fun _ s => WiredFrom e r B G s ∧
      ∀ y k u a b, r.graph? g = some y → y.unit? (.block k) = some u → b ∈ u.nodes →
        r.FlowsInto e.program y k a b → s.Controls a b) r := by
  unfold addPhiControls
  refine wp_graph (fun y hy => ?_) fun _ => nofun
  -- for each block the edges to its phis
  refine wp_bind (wp_mapM_rel (R := fun p l => ∀ q, q ∈ l ↔ q.2 ∈ p.2.nodes ∧
    r.FlowsInto e.program y p.1 q.1 q.2) fun p _ => ?_) ?_
  · refine wp_bind (wp_mapM_rel fun n _ => phiControlsOf_edges hy) ?_
    intro l s hpost
    obtain ⟨rfl, hsound, hall⟩ := hpost
    refine wp_pure ⟨rfl, fun q => ⟨fun hq => ?_, fun hq => ?_⟩⟩
    · obtain ⟨l', hl', hq⟩ := List.mem_flatten.1 hq
      obtain ⟨n, hn, hiff⟩ := hsound l' hl'
      obtain ⟨hqn, hinto⟩ := (hiff q).1 hq
      exact ⟨hqn ▸ hn, hqn ▸ hinto⟩
    · obtain ⟨hn, hinto⟩ := hq
      obtain ⟨l', hl', hiff⟩ := hall q.2 hn
      exact List.mem_flatten.2 ⟨l', hl', (hiff q).2 ⟨rfl, hinto⟩⟩
  intro edges s hpost
  obtain ⟨rfl, hsound, hall⟩ := hpost
  -- so every edge that is drawn is one that the body asks for
  have hdue : ∀ q ∈ edges.flatten, s.Arranged e.program e.settings.phiControl g q.1 q.2 := by
    intro q hq
    obtain ⟨l, hl, hq⟩ := List.mem_flatten.1 hq
    obtain ⟨p, hp, hiff⟩ := hsound l hl
    obtain ⟨hn, hinto⟩ := (hiff q).1 hq
    exact .phi hphi hy (OrderedMap.mem_entries.1 hp) hn hinto
  refine wp_bind (wp_forIn (fun done _ t => WiredFrom e s B G t ∧ ∀ q ∈ done, t.Controls q.1 q.2)
    ⟨⟨.refl s, hr⟩, nofun⟩ ?_) ?_
  · intro done q rest _ t hl hpost
    obtain ⟨⟨hk, hw⟩, hdone⟩ := hpost
    obtain ⟨z, hz, _⟩ := hk.exists_graph hy
    have harr := (hdue q (mem_of_split hl)).grows hk.grows hy hz (hk.same g hg y z hy hz)
    refine wp_addControl fun x _ hx _ => wp_pure ⟨_, rfl, ?_⟩
    obtain ⟨hk', hw'⟩ := hw.control hx (Or.inr ⟨g, hg, harr⟩)
    refine ⟨⟨hk.trans hk', hw'⟩, fun q' hq' => ?_⟩
    rcases List.mem_append.1 hq' with hq' | hq'
    · exact (hdone q' hq').grows hk'.grows
    · rw [List.mem_singleton.1 hq']
      exact (controls_control hx).2 (Or.inr ⟨rfl, rfl⟩)
  · intro _ t hpost
    obtain ⟨ht, hdone⟩ := hpost
    refine wp_pure ⟨ht, fun y' k u a b hy' hu hb hinto => ?_⟩
    rw [hy] at hy'
    cases hy'
    obtain ⟨l, hl, hiff⟩ := hall (k, u) (OrderedMap.mem_entries.2 hu)
    exact hdone (a, b) (List.mem_flatten.2 ⟨l, hl, (hiff (a, b)).2 ⟨hb, hinto⟩⟩)

end Work

end Sdg
