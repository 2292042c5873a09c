import Sdg.Proofs.Building.Bodies
import Sdg.Proofs.Portrait.Calm
import Sdg.Proofs.Registry.Live

/-!
# Drawing a body

The visit of a block takes its graph from one stage to the next, value by value. What a call does
besides, which may be to build other graphs, leaves the graph at its stage.

Main results:

* `Work.visitNode_comes` — the visit of an instruction does what the instruction asks for;
* `Work.visitBlock_comes`, `Work.visitBlocks_comes` — after the visit of its blocks a graph has one
  unit for each, with one node for each instruction.
-/

namespace Sdg

/-! ## The stage of a graph under way -/

namespace Registry

variable {e : Setup} {r s u : Registry} {g : GraphId} {t t' : Stage} {x : Function} {f : FunctionId}
  {y z : Graph}

/-- A part of the build of the graph `g` takes it to the stage `t`. -/
structure Comes (e : Setup) (g : GraphId) (x : Function) (f : FunctionId) (r : Registry) (t : Stage)
    (s : Registry) : Prop where
  course : Course e {g} r s
  shows : s.Shows g x f t

theorem Comes.refl (h : r.Shows g x f t) : Comes e g x f r t r := ⟨.refl e _ r, h⟩

theorem Comes.trans (h : Comes e g x f r t s) (h' : Comes e g x f s t' u) :
    Comes e g x f r t' u :=
  ⟨h.course.trans h'.course, h'.shows⟩

/-- What is done beside the build leaves the graph at its stage. -/
theorem Comes.aside (h : r.Shows g x f t) (hc : Course e ∅ r s) : Comes e g x f r t s :=
  ⟨hc.mono (Set.empty_subset _), h.course hc⟩

/-- A step of the build itself. -/
theorem Comes.step (h : r.Shows g x f t) (ha : r.Ages s)
    (hothers : ∀ h, h ≠ g → s.graph? h = r.graph? h) (hp : s.pool = r.pool)
    (hy : r.graph? g = some y) (hz : s.graph? g = some z) (hentry : z.entryNode? = y.entryNode?)
    (hs : t.Shows x f y → t'.Shows x f z) : Comes e g x f r t' s :=
  ⟨.of_others ha hothers hp, h.step ha hy hz hentry hs⟩

/-- A step of the build that makes no node. -/
theorem Comes.revise {k : Graph → Graph} (h : r.Shows g x f t) (hy : r.graph? g = some y)
    (hk : ∀ y, (k y).function = y.function) (hentry : (k y).entryNode? = y.entryNode?)
    (hs : t.Shows x f y → t'.Shows x f (k y)) :
    Comes e g x f r t' (r.reviseGraph g k) :=
  .step h (.reviseGraph hk) (fun i hi => by simp [hi]) (by simp) hy (by simp [hy]) hentry hs

theorem Ages.giveNode (r : Registry) (g : GraphId) (key : NodeKey) (block? : Option BlockKey) :
    r.Ages (r.giveNode g key block?) :=
  (Ages.pushNode _).trans (Ages.reviseGraph fun _ => rfl)

/-- A step of the build that makes a node. -/
theorem Comes.give {key : NodeKey} {block : BlockKey} {k : Graph → Graph} (h : r.Shows g x f t)
    (hy : r.graph? g = some y) (hk : ∀ y, (k y).function = y.function)
    (hentry : (k { y with index := y.index.insert key r.nextNode }).entryNode? = y.entryNode?)
    (hs : t.Shows x f y →
      t'.Shows x f (k { y with index := y.index.insert key r.nextNode })) :
    Comes e g x f r t' ((r.giveNode g key (some block)).reviseGraph g k) := by
  refine .step h ((Ages.giveNode r g key _).trans (Ages.reviseGraph hk))
    (fun i hi => by simp [hi]) ?_ hy ?_ hentry hs
  · rw [pool_reviseGraph]
    exact pool_reviseGraph _ _ _
  · rw [graph?_reviseGraph, if_pos rfl, Work.graph?_giveNode_self hy]
    rfl

/-- What the index of the graph has under a key, if the graph is there. -/
def Indexes (s : Registry) (g : GraphId) (v : ValueId) (n : NodeId) : Prop :=
  ∀ y, s.graph? g = some y → y.index.get? (.value v) = some n

end Registry

namespace Stage

variable {m : Module} {t t' : Stage} {b d : BlockId} {bs : List BlockId} {vs : List ValueId}
  {v : ValueId} {i : Instruction}

/-- Some values of a block were visited on the way from `t` to `t'`. -/
structure Extends (m : Module) (t : Stage) (bs : List BlockId) (b : BlockId) (vs : List ValueId)
    (t' : Stage) : Prop where
  acted : t'.Acted m
  blocks : t'.blocks = bs
  start : t'.start? = t.start?
  values : ∀ d, t'.valuesOf d = if d = b then t.valuesOf d ++ vs else t.valuesOf d

theorem valuesOf_act (t : Stage) (b : BlockId) (v : ValueId) (op : Operation) (d : BlockId) :
    (t.act b v op).valuesOf d = t.valuesOf d := by
  rw [valuesOf, (t.act_places b v op).1, valuesOf]

theorem Extends.visit (h : Extends m t bs b vs t') (hi : m.instruction? v = .ok (some i))
    (hb : b ∈ bs) : Extends m t bs b (vs ++ [v]) ((t'.list b v).act b v i.op) where
  acted := by
    have hbs : t'.list b v = { t'.list b v with blocks := bs } := by
      rw [← h.blocks]
      rfl
    rw [hbs]
    exact h.acted.visit hi (fun d hd => h.blocks ▸ hd) hb
  blocks := ((t'.list b v).act_places b v i.op).2.1.trans h.blocks
  start := ((t'.list b v).act_places b v i.op).2.2.trans h.start
  values d := by
    rw [valuesOf_act, valuesOf_list, h.values]
    split
    · rw [List.append_assoc]
    · rfl

/-- The first value of a block. -/
theorem Extends.openUnit (h : t.Acted m) (hi : m.instruction? v = .ok (some i)) :
    Extends m t (t.blocks ++ [b]) b [v] ((t.openUnit b v).act b v i.op) where
  acted := h.visit hi (fun d hd => List.mem_append_left _ hd) (by simp)
  blocks := ((t.openUnit b v).act_places b v i.op).2.1
  start := ((t.openUnit b v).act_places b v i.op).2.2
  values d := by
    rw [valuesOf_act]
    exact valuesOf_list

/-- In a block without a unit no value was visited. -/
theorem Acted.valuesOf_eq_nil (h : t.Acted m) (hb : b ∉ t.blocks) : t.valuesOf b = [] := by
  apply List.eq_nil_iff_forall_not_mem.2
  intro v hv
  exact hb (h.placed b v (mem_valuesOf.1 hv))

end Stage

namespace Work

open Registry

variable {e : Setup} {r : Registry} {g : GraphId} {n : NodeId} {t : Stage} {x : Function}
  {f : FunctionId} {b : BlockId} {v : ValueId} {i : Instruction}

/-! ## Pieces -/

/-- Work beside the build. -/
theorem aside_comes {α : Type} {w : Work α} (hw : ∀ r₀, Maintains Fault.Any (Course e ∅ r₀) w)
    (h : r.Shows g x f t) : wp Fault.Any w (fun _ s => Comes e g x f r t s) r :=
  wp_mono (hw r r (.refl e ∅ r)) fun _ _ hs => .aside h hs

/-- Work that leaves all layouts alone. -/
theorem calm_comes {α : Type} {w : Work α} (hw : ∀ r₀ : Registry, Maintains Fault.Any r₀.Calm w)
    (h : r.Shows g x f t) : wp Fault.Any w (fun _ s => Comes e g x f r t s) r :=
  aside_comes (fun _ => course_of_calm hw) h

/-- A node for a value, at the end of a unit. -/
theorem addUnitNode_comes (h : r.Shows g x f t) :
    wp Fault.Any (addUnitNode g (.block b) (.value v))
      (fun n s => Comes e g x f r (t.list b v) s ∧ s.Indexes g v n) r := by
  refine wp_fault (wp_last (wp_addUnitNode fun y hy hkey => wp_pure ⟨?_, ?_⟩)) fun _ _ => trivial
  · exact .give h hy (fun _ => rfl) rfl fun hs => hs.list hkey
  · intro z hz
    rw [graph?_reviseGraph, if_pos rfl, graph?_giveNode_self hy] at hz
    cases hz
    rw [Graph.index_modifyUnit, OrderedMap.get?_insert, if_pos rfl]

/-- A unit with its first node. The first value of a block that has a unit has a node already. -/
theorem openUnit_comes (h : r.Shows g x f t) (ht : t.Acted e.program)
    (hopen : b ∈ t.blocks → v ∈ t.valuesOf b) :
    wp Fault.Any (updateGraph g (fun y =>
      { y with units := y.units.insert b (.fresh (.block b)) }) >>= fun _ =>
        addUnitNode g (.block b) (.value v))
      (fun n s => b ∉ t.blocks ∧ Comes e g x f r (t.openUnit b v) s ∧ s.Indexes g v n) r := by
  refine wp_fault (show wp Fault.Genuine _ _ _ from wp_last ?_) fun _ _ => trivial
  rw [bind_assoc]
  refine wp_openBlock fun y hy hkey => ?_
  have hb : b ∉ t.blocks := by
    intro hb
    have hv := Stage.mem_valuesOf.1 (hopen hb)
    obtain ⟨j, hj⟩ := ((h.2 y hy).1.index (.value v)).2 (Or.inr (Or.inl ⟨b, v, hv, rfl⟩))
    rw [hkey] at hj
    cases hj
  refine wp_pure ⟨hb, ?_, fun z hz => ?_⟩
  · exact .give h hy (fun _ => rfl) rfl fun hs => hs.openUnit hkey hb (ht.valuesOf_eq_nil hb)
  · rw [graph?_reviseGraph, if_pos rfl, graph?_giveNode_self hy] at hz
    cases hz
    rw [Graph.index_openUnit, OrderedMap.get?_insert, if_pos rfl]

/-- An exit, for a graph that has none. -/
theorem addExit_comes {kind : ExitKind} (h : r.Shows g x f t) (ht : t.exit? = none) :
    wp Fault.Any (addExit g kind)
      (fun _ s => Comes e g x f r { t with exit? := some kind } s) r := by
  refine wp_fault (wp_last (wp_addExit fun y hy hkey => wp_pure ?_)) fun _ _ => trivial
  refine .give h hy (fun _ => rfl) rfl fun hs => ?_
  obtain rfl := hs.function
  exact hs.addExit ht hkey

/-- An edge between units. -/
theorem addUnitEdge_comes {a c : BlockKey} {label : Nat} (h : r.Shows g x f t) :
    wp Fault.Any (addUnitEdge g a c label)
      (fun _ s => Comes e g x f r (t.lead a c label) s) r := by
  refine wp_fault (wp_last (wp_addUnitEdge fun y u _ hy hu _ => wp_pure ?_)) fun _ _ => trivial
  refine .revise h hy (fun y => ?_) ?_ fun hs => hs.lead hu
  · cases a <;> cases c <;> rfl
  · rw [Graph.lead, Graph.entryNode?_modifyUnit, Graph.entryNode?_modifyUnit]

theorem addUnitControl_comes {a c : BlockKey} (h : r.Shows g x f t) :
    wp Fault.Any (addUnitControl g a c)
      (fun _ s => Comes e g x f r (t.govern a c) s) r := by
  refine wp_fault (wp_last (wp_addUnitControl fun y u _ hy hu _ => wp_pure ?_)) fun _ _ => trivial
  refine .revise h hy (fun y => ?_) ?_ fun hs => hs.govern hu
  · cases a <;> cases c <;> rfl
  · rw [Graph.govern, Graph.entryNode?_modifyUnit, Graph.entryNode?_modifyUnit]

/-! ## Instructions -/

theorem calm_visitAddress {a : ValueId} {r₀ : Registry} :
    Maintains Fault.Any r₀.Calm (visitAddress e.program g a) :=
  .bind (.ask fun _ _ => trivial) fun _ => .bind (.ask fun _ _ => trivial) fun _ =>
    .ite (fun _ => calm_discoverGlobal) fun _ => .pure _

/-- A return flows into the exit, which is made for the first one. -/
theorem visitReturn_comes (h : r.Shows g x f t) :
    wp Fault.Any (visitReturn g b n) (fun _ s => Comes e g x f r (t.leave b) s) r := by
  unfold visitReturn
  refine wp_graph (fun y hy => ?_) fun _ => trivial
  -- the edge to the exit, once there is one
  have hrest : ∀ exit s t', Comes e g x f r t' s →
      t'.lead (.block b) .exit exitLabel = t.leave b →
      wp Fault.Any (addControl n exit >>= fun _ => addUnitEdge g (.block b) .exit exitLabel)
        (fun _ u => Comes e g x f r (t.leave b) u) s := by
    intro exit s t' hs ht'
    refine wp_bind (calm_comes (e := e) (fun _ => calm_addControl) hs.shows) fun _ s₁ h₁ => ?_
    refine wp_mono (addUnitEdge_comes (e := e) h₁.shows) fun _ s₂ h₂ => ?_
    rw [← ht']
    exact hs.trans (h₁.trans h₂)
  have hnone := (h.2 y hy).1.exitNode?_isNone
  cases hexit : y.exitNode? with
  | some exit =>
    refine wp_bind (P := fun _ s => s = r) (wp_pure rfl) fun _ _ hp => ?_
    subst hp
    refine hrest _ _ t (.refl h) ?_
    rw [hexit] at hnone
    obtain ⟨kind, hkind⟩ := Option.isSome_iff_exists.1 (by simpa using hnone.symm)
    rw [Stage.leave, hkind, Option.some_or, ← hkind]
    rfl
  | none =>
    have ht : t.exit? = none := by
      rw [hexit] at hnone
      exact Option.isNone_iff_eq_none.1 hnone.symm
    refine wp_bind (addExit_comes h ht) fun exit s hs => hrest exit s _ hs ?_
    rw [Stage.leave, ht]
    rfl

section

variable {request : FunctionId → Work GraphId}
  (hreq : ∀ r₀ f, Maintains Fault.Any (Course e ∅ r₀) (request f))

include hreq

/-- A call is listed, whatever it leads to. -/
theorem visitCall_comes {callee : ValueId} {args : List ValueId} {k : BlockId}
    (h : r.Shows g x f t) (hn : r.Indexes g v n) (hv : (b, v) ∈ t.values) :
    wp Fault.Any (visitCall request e g k n v callee args)
      (fun _ s => Comes e g x f r (t.call v) s) r := by
  unfold visitCall
  refine wp_bind (P := fun _ s => Comes e g x f r (t.call v) s) ?_ fun _ s hs => ?_
  · refine wp_fault (wp_last (wp_updateGraph fun y hy => wp_pure ?_)) fun _ _ => trivial
    exact .revise h hy (fun _ => rfl) rfl fun hs => hs.call (hn y hy) hv
  · exact wp_mono (aside_comes (fun _ => course_resolve hreq) hs.shows) fun _ _ => hs.trans

/-- **Instructions.** The visit of an instruction does what the instruction asks for. -/
theorem visitInstruction_comes (h : r.Shows g x f t) (hn : r.Indexes g v n)
    (hv : (b, v) ∈ t.values) :
    wp Fault.Any (visitInstruction request e g b n v i)
      (fun _ s => Comes e g x f r (t.act b v i.op) s) r := by
  unfold visitInstruction
  cases i.op with
  | call callee args => exact visitCall_comes hreq h hn hv
  | load a => exact calm_comes (fun _ => calm_visitAddress) h
  | getElementPtr base _ _ => exact calm_comes (fun _ => calm_visitAddress) h
  | store value address =>
    exact calm_comes (fun _ => .bind calm_visitAddress fun _ => calm_visitAddress) h
  | ret value? => exact visitReturn_comes h
  | _ => exact wp_pure (.refl h)

theorem visitNode_comes (h : r.Shows g x f t) (hn : r.Indexes g v n) (hv : (b, v) ∈ t.values) :
    wp Fault.Any (visitNode request e g b v n) (fun _ s => ∃ i,
      e.program.instruction? v = .ok (some i) ∧ Comes e g x f r (t.act b v i.op) s) r := by
  unfold visitNode
  refine wp_ask (fun i? hi => wp_require (fun i hi' => wp_report ?_) fun _ => trivial)
    fun _ _ => trivial
  cases hi'
  exact wp_mono (visitInstruction_comes hreq h hn hv) fun _ _ hs => ⟨i, hi, hs⟩

/-! ## Blocks -/

theorem visitValue_comes (h : r.Shows g x f t) :
    wp Fault.Any (visitValue request e g b v) (fun _ s => ∃ i,
      e.program.instruction? v = .ok (some i) ∧
        Comes e g x f r ((t.list b v).act b v i.op) s) r := by
  rw [visitValue_eq]
  refine wp_bind (addUnitNode_comes (e := e) h) fun n s hs => ?_
  obtain ⟨hs, hn⟩ := hs
  refine wp_mono (visitNode_comes hreq hs.shows hn (Stage.mem_list.2 (Or.inr ⟨rfl, rfl⟩))) ?_
  intro _ u hu
  obtain ⟨i, hi, hu⟩ := hu
  exact ⟨i, hi, hs.trans hu⟩

/-- The visit of some values of a block, one after the other. -/
theorem visitValues_comes {bs : List BlockId} {vs l : List ValueId} {t₀ : Stage}
    (h : r.Shows g x f t) (ht : Stage.Extends e.program t₀ bs b vs t) (hb : b ∈ bs) :
    wp Fault.Any (forIn l PUnit.unit fun v _ => do
      visitValue request e g b v
      pure (.yield PUnit.unit)) (fun _ s => ∃ t', Comes e g x f r t' s ∧
        Stage.Extends e.program t₀ bs b (vs ++ l) t') r := by
  refine wp_forIn (fun done _ s => ∃ t', Comes e g x f r t' s ∧
    Stage.Extends e.program t₀ bs b (vs ++ done) t') ⟨t, .refl h, by simpa using ht⟩ ?_
  intro done v rest _ s _ hpost
  obtain ⟨t', hs, ht'⟩ := hpost
  refine wp_bind (visitValue_comes hreq hs.shows) fun _ u hpost => ?_
  obtain ⟨i, hi, hu⟩ := hpost
  refine wp_pure ⟨_, rfl, _, hs.trans hu, ?_⟩
  rw [← List.append_assoc]
  exact ht'.visit hi hb

/-- **Blocks.** After the visit of a block its unit has one node for each of its instructions. -/
theorem visitBlock_comes (h : r.Shows g x f t) (ht : t.Acted e.program)
    (hdone : ∀ d ∈ t.blocks, ∃ z, e.program.block d = .ok z ∧ t.valuesOf d = z.instructions) :
    wp Fault.Any (visitBlock request e g b) (fun _ s => ∃ z t', e.program.block b = .ok z ∧
      b ∉ t.blocks ∧ Comes e g x f r t' s ∧
        Stage.Extends e.program t (t.blocks ++ [b]) b z.instructions t') r := by
  unfold visitBlock
  refine wp_ask (fun z hz => ?_) fun _ _ => trivial
  cases hl : z.instructions with
  | nil => exact wp_throw_bind trivial
  | cons v rest =>
    simp only [List.isEmpty_cons, Bool.false_eq_true, if_false, List.forIn_cons, bind_assoc]
    rw [visitValue_eq, bind_assoc, ← bind_assoc]
    -- the unit and the node of the first instruction come together
    refine wp_bind (openUnit_comes h ht fun hb => ?_) fun n s hs => ?_
    · obtain ⟨z', hz', hvalues⟩ := hdone b hb
      rw [hz] at hz'
      cases hz'
      rw [hvalues, hl]
      exact List.mem_cons_self
    obtain ⟨hb, hs, hn⟩ := hs
    refine wp_bind (visitNode_comes hreq hs.shows hn (Stage.mem_list.2 (Or.inr ⟨rfl, rfl⟩))) ?_
    intro _ u hu
    obtain ⟨i, hi, hu⟩ := hu
    rw [pure_bind]
    have hfirst := Stage.Extends.openUnit (b := b) ht hi
    refine wp_bind (visitValues_comes (l := rest) hreq hu.shows hfirst (by simp)) fun _ w hw => ?_
    obtain ⟨t', hw, ht'⟩ := hw
    exact wp_pure ⟨z, t', hz, hb, hs.trans (hu.trans hw), hl ▸ ht'⟩

/-- After the visit of all blocks of a function each has its unit, and all values were visited. -/
theorem visitBlocks_comes (h : r.Shows g x f .start) :
    wp Fault.Any (forIn x.blocks PUnit.unit fun b _ => do
      visitBlock request e g b
      pure (.yield PUnit.unit)) (fun _ s => ∃ t, Comes e g x f r t s ∧ t.Acted e.program ∧
        t.blocks = x.blocks ∧ ∀ d ∈ t.blocks, ∃ z, e.program.block d = .ok z ∧
          t.valuesOf d = z.instructions) r := by
  refine wp_forIn (fun done _ s => ∃ t, Comes e g x f r t s ∧ t.Acted e.program ∧
    t.blocks = done ∧ ∀ d ∈ t.blocks, ∃ z, e.program.block d = .ok z ∧
      t.valuesOf d = z.instructions) ⟨.start, .refl h, .start _, rfl, nofun⟩ ?_
  intro done b rest _ s _ hpost
  obtain ⟨t, hs, ht, hblocks, hdone⟩ := hpost
  refine wp_bind (visitBlock_comes hreq hs.shows ht hdone) fun _ u hpost => ?_
  obtain ⟨z, t', hz, hb, hu, ht'⟩ := hpost
  refine wp_pure ⟨_, rfl, t', hs.trans hu, ht'.acted, by rw [ht'.blocks, hblocks], ?_⟩
  intro d hd
  rw [ht'.blocks, List.mem_append, List.mem_singleton] at hd
  rw [ht'.values]
  rcases hd with hd | rfl
  · have hne : d ≠ b := fun he => hb (he ▸ hd)
    rw [if_neg hne]
    exact hdone d hd
  · rw [if_pos rfl, ht.valuesOf_eq_nil hb]
    exact ⟨z, hz, rfl⟩

end

end Work

end Sdg
