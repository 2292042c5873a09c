import Sdg.Proofs.Safety.Calls
import Sdg.Proofs.Safety.Underway

/-!
# Bodies without faults

What a visit of a body asks of its module is answered, and each of its steps finds what it is about:
the node of a value is new, its unit is there or is made for it, and a return finds the exit or
makes it. So a body that is under way stays so, block by block.

Main results:

* `visitInstruction_visits` — after its visit a node is finished;
* `visitBlock_visits` — the visit of a block leaves a draft with one more unit.
-/

namespace Sdg

open Registry

namespace Work

variable {e : Setup} {r s : Registry} {n : NodeId} {g : GraphId} {fn : FunctionId} {k : Nat}
  {v a : ValueId} {b : BlockId} {x : Function} {bs : List BlockId} {vs : List ValueId}
  {open? : Option NodeId} {start? : Option BlockId} {y : Graph} {i : Instruction}
  {request : FunctionId → Work GraphId}

/-! ## New units -/

/-- The exit in its unit. -/
theorem wp_addExit_live {β : Type} {bad : Fault → Prop} {Q : β → Registry → Prop} {kind : ExitKind}
    {k : NodeId → Work β} (hy : r.graph? g = some y)
    (h : y.index.get? (.exit y.function kind) = none → wp bad (k r.nextNode) Q
      ((r.giveNode g (.exit y.function kind) (some .exit)).reviseGraph g fun y =>
        y.openUnit .exit r.nextNode))
    (hbad : y.index.get? (.exit y.function kind) ≠ none →
      bad (.duplicate (.exit y.function kind) g)) :
    wp bad (addExit g kind >>= k) Q r := by
  unfold addExit
  simp only [bind_assoc, pure_bind]
  refine wp_updateGraph_live hy ?_
  have hy' : (r.reviseGraph g fun y => { y with exitUnit? := some (.fresh .exit) }).graph? g =
      some { y with exitUnit? := some (.fresh .exit) } := by
    simp [hy]
  -- the unit was just made
  refine wp_graph_live hy' (wp_addUnitNode_live hy' (fun _ hkey _ => ?_) hbad nofun)
  refine wp_updateGraph_live (graph?_giveNode_revised hy') ?_
  rw [nextNode_reviseGraph, reviseGraph_reviseGraph, reviseGraph_openUnit]
  · exact h hkey
  · exact fun _ _ => rfl
  · exact fun _ => rfl

/-- The unit of a block, up to the node of its first instruction. -/
theorem wp_openBlock_live {β : Type} {bad : Fault → Prop} {Q : β → Registry → Prop} {key : NodeKey}
    {k : NodeId → Work β} (hy : r.graph? g = some y)
    (h : y.index.get? key = none → wp bad (k r.nextNode) Q
      ((r.giveNode g key (some (.block b))).reviseGraph g fun y =>
        y.openUnit (.block b) r.nextNode))
    (hbad : y.index.get? key ≠ none → bad (.duplicate key g)) :
    wp bad (updateGraph g (fun y =>
      { y with units := y.units.insert b (.fresh (.block b)) }) >>= fun _ =>
        addUnitNode g (.block b) key >>= k) Q r := by
  refine wp_updateGraph_live hy ?_
  have hy' : (r.reviseGraph g fun y =>
      { y with units := y.units.insert b (.fresh (.block b)) }).graph? g =
        some { y with units := y.units.insert b (.fresh (.block b)) } := by
    simp [hy]
  refine wp_addUnitNode_live hy' (fun _ hkey _ => ?_) hbad fun hn => ?_
  · rw [nextNode_reviseGraph, reviseGraph_openUnit]
    · exact h hkey
    · intro y i
      simp only [Graph.modifyUnit, Graph.openUnit, OrderedMap.modify_insert]
      rfl
    · exact fun _ => rfl
  · -- the unit was just made
    simp [Graph.unit?, OrderedMap.get?_insert] at hn

/-! ## The exit -/

/-- A graph that has no exit yet can get one. -/
theorem addExit_visits {kind : ExitKind} (h : Visiting e g fn x bs vs r open? start?)
    (hy : r.graph? g = some y) (hnone : y.exitNode? = none) :
    wp e.Blames (addExit g kind) (fun n s => Visits e r s g x bs vs open? start? ∧
      ∃ y', s.graph? g = some y' ∧ y'.exitNode? = some n) r := by
  have hunused : y.index.get? (.exit y.function kind) = none := by
    obtain ⟨y', hy', _, hv⟩ := h.underway
    rw [hy] at hy'
    cases hy'
    exact hv.unused_exit hnone kind
  have hmain : wp e.Blames (addExit g kind) (fun n s => Advances e.program r s {g} ∧
      s.Underway e.program g x bs vs open? start? ∧
        ∃ y', s.graph? g = some y' ∧ y'.exitNode? = some n) r := by
    refine wp_last (wp_addExit_live hy
      (fun hkey => wp_pure ⟨?_, h.underway.openExit hy hnone kind, ?_⟩)
      fun hne => absurd hunused hne)
    · exact .giveNode hy hkey fun z => .openUnit z .exit r.nextNode
    · exact ⟨_, graph?_giveNode_revised hy, rfl⟩
  refine wp_mono (wp_and (addExit_spec h.fit.orderly hy hnone kind) hmain) ?_
  intro n s hpost
  obtain ⟨hs, hadv, hus, hexit⟩ := hpost
  exact ⟨⟨hs, hadv, hus⟩, hexit⟩

/-- A return that is let into the exit is finished. -/
theorem leave_visits {exit : NodeId} (h : Visiting e g fn x bs vs r (some n))
    (hn : Indexed r g (.value v) n) (hi : e.program.instruction? v = .ok (some i)) (hb : b ∈ bs)
    (hy : r.graph? g = some y) (hexit : y.exitNode? = some exit) :
    wp e.Blames (addControl n exit >>= fun _ => addUnitEdge g (.block b) .exit exitLabel)
      (fun _ s => Visits e r s g x bs vs) r := by
  obtain ⟨z, _, hz, hzk, _⟩ := hn
  have hr := h.fit.orderly
  obtain ⟨key, hkey⟩ := (hr.shaped g y hy).exit exit hexit
  obtain ⟨w, hw, _⟩ := hr.housed.live (.index g key) exit (by simp [occupant, hy, hkey])
  refine wp_addControl_live hz hw ?_
  have hcontrol : Spares e r (r.control n exit) := .control hr hz hw
  have haside := h.aside hcontrol
  have hy' : (r.control n exit).graph? g = some y := by simpa using hy
  obtain ⟨y', hy'', hd, hv⟩ := haside.underway
  rw [hy'] at hy''
  cases hy''
  -- from here on the return controls the exit
  have hfinished : (r.control n exit).Finished e.program y n := by
    have hzn := node?_control r n exit n
    rw [hz, Option.map_some] at hzn
    refine ⟨_, some i.op, hzn, ?_, fun _ _ => ⟨exit, hexit, ?_⟩⟩
    · exact hzk ▸ Module.operation?_of_instruction? hi
    · simp [OrderedSet.mem_insert]
  have hclosed : Visits e r (r.control n exit) g x bs vs :=
    ⟨hcontrol.evolves, hcontrol.advances.but {g}, y, hy', hd.close hfinished, hv⟩
  obtain ⟨u, hub⟩ := (hv.units b).2 hb
  obtain ⟨w', hw'⟩ := hd.exit exit hexit
  refine wp_last (wp_addUnitEdge_live hy' (fun _ _ _ _ => wp_pure ?_) (fun hne => ?_) fun hne => ?_)
  · exact hclosed.trans (.lead haside.fit hclosed.underway hy' hub hw' (by simp))
  · rw [hub] at hne
    cases hne
  · rw [hw'] at hne
    cases hne

/-- A return can be visited. -/
theorem visitReturn_visits (h : Visiting e g fn x bs vs r (some n))
    (hn : Indexed r g (.value v) n) (hi : e.program.instruction? v = .ok (some i)) (hb : b ∈ bs) :
    wp e.Blames (visitReturn g b n) (fun _ s => Visits e r s g x bs vs) r := by
  obtain ⟨y, hy, _⟩ := h.underway
  unfold visitReturn
  refine wp_graph_live hy ?_
  -- the exit is there, or it is made for this return
  cases hexit : y.exitNode? with
  | some exit => exact leave_visits h hn hi hb hy hexit
  | none =>
    refine wp_bind (addExit_visits h hy hexit) ?_
    intro exit s hpost
    obtain ⟨hs, y', hy', hexit'⟩ := hpost
    exact wp_mono (leave_visits (h.after hs) (hn.grows hs.evolves.grows) hi hb hy' hexit')
      fun _ _ => hs.trans

/-! ## Instructions -/

/-- What is behind an address can be told and made a parameter. -/
theorem visitAddress_spares (hr : r.Fit e.program) (hg : r.Hosts g fn)
    (hv : e.program.InBody fn v) (hi : e.program.instruction? v = .ok (some i))
    (ha : a ∈ i.op.addresses) :
    wp e.Blames (visitAddress e.program g a) (fun _ s => Spares e r s) r := by
  unfold visitAddress
  refine wp_ask_both_sane (fun hsane => ?_) fun t isGlobal ht hb => ?_
  · obtain ⟨z, hz⟩ := hsane.program.closed.operand_of_mem hi (i.op.addresses_subset ha)
    exact hsane.program.closed.exists_base hz
  cases isGlobal with
  | false => exact wp_pure (.refl e r)
  | true =>
    have hreason : ∀ y, r.graph? g = some y → Reason e r g y (.global t) := by
      intro y hy
      have hy' := hg.function_eq hy
      exact .touched (hy' ▸ ⟨v, hv, i, a, hi, ha, ht, hb⟩)
    obtain ⟨y, hy, _⟩ := id hg
    refine wp_mono ((discoverGlobal_safe hr hy hreason).and
      (discoverGlobal_spec hr.orderly hreason)) ?_
    intro _ s hpost
    exact .of_settles hr hpost.1

section

variable (hreq : Requests e k request) (hdel : Delivers e k request)

include hreq hdel

/-- **Instructions.** An instruction can be visited, and its node is finished then. -/
theorem visitInstruction_visits (h : Visiting e g fn x bs vs r (some n))
    (hk : r.pending e.program < k) (hn : Indexed r g (.value v) n) (hv : e.program.InBody fn v)
    (hi : e.program.instruction? v = .ok (some i)) (hb : b ∈ bs) (hib : e.Sane → i.block = b) :
    wp e.Blames (visitInstruction request e g b n v i) (fun _ s => Visits e r s g x bs vs) r := by
  -- what spares all bodies finishes whatever is no return
  have hclose : ∀ s, (∀ v?, i.op ≠ .ret v?) → Spares e r s → Visits e r s g x bs vs := by
    intro s hno hs
    exact ⟨hs.evolves, hs.advances.but {g},
      (h.aside hs).underway.close (hn.grows hs.evolves.grows) hi hno⟩
  have haddress : ∀ a ∈ i.op.addresses, (∀ v?, i.op ≠ .ret v?) →
      wp e.Blames (visitAddress e.program g a) (fun _ s => Visits e r s g x bs vs) r :=
    fun a ha hno => wp_mono (visitAddress_spares h.fit h.hosts hv hi ha) fun _ s => hclose s hno
  unfold visitInstruction
  cases hop : i.op with
  | call callee args =>
    refine wp_mono (visitCall_spares hreq hdel h.fit hk hn h.hosts hv ⟨i, hi, hop⟩ fun hsane => ?_)
      fun _ s => hclose s (by simp [hop])
    exact hib hsane ▸ h.underway.hasUnit hb
  | load a => exact haddress a (by simp [hop, Operation.addresses]) (by simp [hop])
  | getElementPtr base _ _ =>
    exact haddress base (by simp [hop, Operation.addresses]) (by simp [hop])
  | store value address =>
    have hvalue : value ∈ i.op.addresses := by simp [hop, Operation.addresses]
    have haddr : address ∈ i.op.addresses := by simp [hop, Operation.addresses]
    refine wp_bind (visitAddress_spares h.fit h.hosts hv hi hvalue) ?_
    intro _ s hs
    refine wp_mono (visitAddress_spares (hs.fit h.fit) (h.aside hs).hosts hv hi haddr) ?_
    intro _ t ht
    exact hclose t (by simp [hop]) (hs.trans ht)
  | ret v? => exact visitReturn_visits h hn hi hb
  | _ => exact wp_pure (hclose r (by simp [hop]) (.refl e r))

/-- The node of an instruction can be visited. -/
theorem visitNode_visits (h : Visiting e g fn x bs vs r (some n)) (hk : r.pending e.program < k)
    (hn : Indexed r g (.value v) n) (hv : e.program.InBody fn v) (hb : b ∈ bs)
    (hplace : e.Sane → ∃ i, e.program.instruction? v = .ok (some i) ∧ i.block = b) :
    wp e.Blames (visitNode request e g b v n) (fun _ s => Visits e r s g x bs vs) r := by
  unfold visitNode
  refine wp_ask_sane (fun hsane => ?_) fun i? hi => wp_require_sane nofun (fun hsane => ?_)
    fun i hi' => wp_report ?_
  · obtain ⟨i, hi, _⟩ := hplace hsane
    exact ⟨some i, hi⟩
  · obtain ⟨i, hi', _⟩ := hplace hsane
    rw [hi] at hi'
    cases hi'
    exact ⟨i, rfl⟩
  cases hi'
  refine visitInstruction_visits hreq hdel h hk hn hv hi hb fun hsane => ?_
  obtain ⟨i', hi', hib⟩ := hplace hsane
  rw [hi] at hi'
  cases hi'
  exact hib

/-! ## Blocks -/

/-- The visit of one more value of a block. -/
theorem visitValue_visits (h : Visiting e g fn x bs vs r) (hk : r.pending e.program < k)
    (hv : e.program.InBody fn v) (hb : b ∈ bs)
    (hplace : e.Sane → ∃ i, e.program.instruction? v = .ok (some i) ∧ i.block = b)
    (hnew : e.Sane → v ∉ vs ∧ v ≠ x.value) :
    wp e.Blames (visitValue request e g b v) (fun _ s => Visits e r s g x bs (vs ++ [v])) r := by
  obtain ⟨y, hy, _, hvisited⟩ := id h.underway
  have hunused := fun hsane => hvisited.unused (hnew hsane).1 (hnew hsane).2
  have hadd : wp e.Blames (addUnitNode g (.block b) (.value v)) (fun n s =>
      Advances e.program r s {g} ∧ s.Underway e.program g x bs (vs ++ [v]) (some n)) r := by
    refine wp_last (wp_addUnitNode_live hy
      (fun _ hkey _ => wp_pure ⟨?_, h.underway.append hy hkey b⟩)
      (blames_duplicate hunused) (blames_missingUnit fun _ => (hvisited.units b).2 hb))
    exact .giveNode hy hkey fun z => .modifyUnit z _ _
  rw [visitValue_eq]
  refine wp_bind (wp_and (addUnitNode_spec h.fit.orderly) hadd) ?_
  intro n s hpost
  obtain ⟨⟨hs, hn⟩, hadv, hus⟩ := hpost
  have hvisits : Visits e r s g x bs (vs ++ [v]) (some n) := ⟨hs, hadv, hus⟩
  exact wp_mono (visitNode_visits hreq hdel (h.after hvisits) (hvisits.pending hk) hn hv hb hplace)
    fun _ _ => hvisits.trans

/-- The visit of the first value of a block, which opens the unit of the block. -/
theorem openBlock_visits {z : Block} {rest : List ValueId} (h : Visiting e g fn x bs vs r)
    (hk : r.pending e.program < k) (hv : e.program.InBody fn v)
    (hz : e.program.block b = .ok z) (hl : z.instructions = v :: rest)
    (hplace : e.Sane → ∃ i, e.program.instruction? v = .ok (some i) ∧ i.block = b)
    (hnew : e.Sane → v ∉ vs ∧ v ≠ x.value) :
    wp e.Blames (updateGraph g (fun y =>
      { y with units := y.units.insert b (.fresh (.block b)) }) >>= fun _ =>
        visitValue request e g b v)
      (fun _ s => Visits e r s g x (bs ++ [b]) (vs ++ [v])) r := by
  obtain ⟨y, hy, _, hvisited⟩ := id h.underway
  have hr := h.fit.orderly
  rw [visitValue_eq]
  refine wp_openBlock_live hy (fun hkey => ?_) (blames_duplicate fun hsane =>
    hvisited.unused (hnew hsane).1 (hnew hsane).2)
  -- the block has no unit as long as its first value has no node
  have hopen : Evolves e r ((r.giveNode g (.value v) (some (.block b))).reviseGraph g fun y =>
      y.openUnit (.block b) r.nextNode) := by
    refine evolves_openUnit hr hy hkey (unit?_eq_none_of_first hr hy hz hl hkey) ?_
    intro b' z' v' rest' hb' hz' hl'
    cases hb'
    rw [hz] at hz'
    cases hz'
    rw [hl] at hl'
    cases hl'
    rfl
  have hvisits : Visits e r _ g x (bs ++ [b]) (vs ++ [v]) (some r.nextNode) :=
    ⟨hopen, .giveNode hy hkey fun z => .openUnit z _ _, h.underway.openBlock hy hkey b⟩
  have hindexed : Indexed (r.giveNode g (.value v) (some (.block b))) g (.value v) r.nextNode :=
    .of_giveNode hy
  exact wp_mono (visitNode_visits hreq hdel (h.after hvisits) (hvisits.pending hk)
    (hindexed.grows (.reviseGraph fun w _ => (Graph.SameCore.openUnit w _ _).grows)) hv (by simp)
    hplace) fun _ _ => hvisits.trans

/-- The visit of some values of a block, one after the other. -/
theorem visitValues_visits {l : List ValueId} (h : Visiting e g fn x bs vs r)
    (hk : r.pending e.program < k) (hl : ∀ v ∈ l, e.program.InBody fn v) (hb : b ∈ bs)
    (hplace : e.Sane → ∀ v ∈ l, ∃ i, e.program.instruction? v = .ok (some i) ∧ i.block = b)
    (hnew : e.Sane → l.Nodup ∧ ∀ v ∈ l, v ∉ vs ∧ v ≠ x.value) :
    wp e.Blames (forIn l PUnit.unit fun v _ => do
      visitValue request e g b v
      pure (.yield PUnit.unit)) (fun _ s => Visits e r s g x bs (vs ++ l)) r := by
  refine wp_forIn (fun done _ s => Visits e r s g x bs (vs ++ done)) ?_ ?_
  · exact (List.append_nil vs).symm ▸ .refl h.underway
  intro done v rest _ s hsplit hs
  have hmem := mem_of_split hsplit
  refine wp_bind (visitValue_visits hreq hdel (h.after hs) (hs.pending hk) (hl v hmem) hb
    (fun hsane => hplace hsane v hmem) fun hsane => ?_) ?_
  · obtain ⟨hnd, hnew⟩ := hnew hsane
    refine ⟨fun hin => ?_, (hnew v hmem).2⟩
    rcases List.mem_append.1 hin with hin | hin
    · exact (hnew v hmem).1 hin
    · exact not_mem_of_split hnd hsplit hin
  intro _ t ht
  refine wp_pure ⟨_, rfl, hs.trans ?_⟩
  rw [← List.append_assoc]
  exact ht

/-- **Blocks.** After the visit of a block its unit is there, and all nodes of it are finished. -/
theorem visitBlock_visits (h : Visiting e g fn x bs vs r) (hk : r.pending e.program < k)
    (hb : b ∈ x.blocks)
    (hnew : e.Sane → ∀ z, e.program.block b = .ok z → ∀ v ∈ z.instructions, v ∉ vs) :
    wp e.Blames (visitBlock request e g b) (fun _ s => ∃ z, e.program.block b = .ok z ∧
      Visits e r s g x (bs ++ [b]) (vs ++ z.instructions)) r := by
  have hx := h.function
  unfold visitBlock
  refine wp_ask_sane (fun hsane => hsane.program.closed.block_of_mem hx hb) fun z hz => ?_
  have hbody : ∀ v ∈ z.instructions, e.program.InBody fn v :=
    fun v hv => ⟨x, b, z, hx, hb, hz, hv⟩
  have hplace : e.Sane → ∀ v ∈ z.instructions,
      ∃ i, e.program.instruction? v = .ok (some i) ∧ i.block = b :=
    fun hsane v hv => hsane.program.placed b z v hz hv
  -- no instruction stands for the function, and none stands in the block twice
  have hfresh : e.Sane → z.instructions.Nodup ∧
      ∀ v ∈ z.instructions, v ∉ vs ∧ v ≠ x.value := by
    intro hsane
    refine ⟨hsane.program.distinct b z hz, fun v hv => ⟨hnew hsane z hz v hv, ?_⟩⟩
    rintro rfl
    obtain ⟨i, hi, _⟩ := hplace hsane _ hv
    rw [hsane.program.named fn x hx] at hi
    cases hi
  cases hl : z.instructions with
  | nil =>
    exact wp_throw_bind ⟨nofun, fun hsane => hsane.program.filled fn x b z hx hb hz hl⟩
  | cons v rest =>
    have hvl : ∀ w, w ∈ v :: rest → w ∈ z.instructions := fun w hw => hl ▸ hw
    simp only [List.isEmpty_cons, Bool.false_eq_true, if_false, List.forIn_cons, bind_assoc]
    rw [← bind_assoc]
    -- the unit and the node of the first instruction come together
    refine wp_bind (openBlock_visits hreq hdel h hk (hbody v (hvl v List.mem_cons_self)) hz hl
      (fun hsane => hplace hsane v (hvl v List.mem_cons_self))
      fun hsane => (hfresh hsane).2 v (hvl v List.mem_cons_self)) ?_
    intro _ s hs
    rw [pure_bind]
    refine wp_bind (visitValues_visits (l := rest) hreq hdel (h.after hs) (hs.pending hk)
      (fun w hw => hbody w (hvl w (List.mem_cons_of_mem _ hw)))
      (List.mem_append_right _ (List.mem_singleton_self b))
      (fun hsane w hw => hplace hsane w (hvl w (List.mem_cons_of_mem _ hw))) fun hsane => ?_) ?_
    · obtain ⟨hnd, hne⟩ := hfresh hsane
      rw [hl, List.nodup_cons] at hnd
      refine ⟨hnd.2, fun w hw => ⟨fun hin => ?_, (hne w (hvl w (List.mem_cons_of_mem _ hw))).2⟩⟩
      rcases List.mem_append.1 hin with hin | hin
      · exact (hne w (hvl w (List.mem_cons_of_mem _ hw))).1 hin
      · exact hnd.1 (List.mem_singleton.1 hin ▸ hw)
    intro _ t ht
    refine wp_pure ⟨z, hz, hs.trans ?_⟩
    rw [hl, List.append_cons vs v rest]
    exact ht

end

end Work

end Sdg
