import Sdg.Proofs.Closed
import Sdg.Proofs.Collection
import Sdg.Proofs.Flow.Climb

/-!
# Control dependence

The blocks of a function and where control goes between them, as the module has it, and what control
scopes are in these terms. Scopes may be kept from one query to the next, as long as all queries are
about one module.

Main results:

* `ScopeCache.Filled.query_eq` — a cache answers what would be worked out;
* `Module.IsClosed.control_dependence` — what control scopes hold, and in which order.
-/

namespace Sdg

namespace Module

/-- Whether `b` is a block of the function. -/
def HasBlock (m : Module) (f : FunctionId) (b : BlockId) : Prop :=
  ∃ x, m.function f = .ok x ∧ b ∈ x.blocks

/-- Whether control goes from `b` to `s`, both blocks of the function. -/
def Goes (m : Module) (f : FunctionId) (b s : BlockId) : Prop :=
  m.HasBlock f b ∧ m.HasBlock f s ∧ ∃ l, m.successors b = .ok l ∧ s ∈ l

/-- Whether `b` is a block of the function from which control goes nowhere. -/
def IsExit (m : Module) (f : FunctionId) (b : BlockId) : Prop :=
  m.HasBlock f b ∧ m.successors b = .ok []

/-- A way of control through a function from a block to an exit. -/
abbrev ExitWay (m : Module) (f : FunctionId) : BlockId → List BlockId → Prop :=
  Way (m.Goes f) (m.IsExit f)

/-- Whether the branch at the end of `b` decides, by control going to `s` next, that `x` runs: `x`
lies on each way from `s` to an exit, but is not sure to be come to from `b` once `b` is left. If no
exit is reached from `s`, then `s` alone is decided. -/
def Decides (m : Module) (f : FunctionId) (b s x : BlockId) : Prop :=
  ((∀ p, ¬ m.ExitWay f s p) ∧ x = s) ∨
    ((∃ p, m.ExitWay f s p) ∧ (∀ p, m.ExitWay f s p → x ∈ p) ∧
      (x = b ∨ ∃ p, m.ExitWay f b p ∧ x ∉ p))

variable {m : Module} {f : FunctionId} {b s x : BlockId} {g : Flow}

/-- The row of a block is read off the module. -/
theorem row_eq {e : BlockId × List BlockId}
    (h : (do return (b, ← m.successors b) : Except Missing _) = .ok e) :
    e.1 = b ∧ m.successors e.1 = .ok e.2 := by
  obtain ⟨l, hl, he⟩ := bind_eq_ok.1 h
  cases he
  exact ⟨rfl, hl⟩

/-- What the flow of a function says is what the module says. -/
theorem flow_eq (h : m.flow f = .ok g) :
    g.blocks.Nodup ∧ (∀ b, b ∈ g.blocks ↔ m.HasBlock f b) ∧
      ∀ b, m.HasBlock f b → m.successors b = .ok (g.successors b) := by
  obtain ⟨x, hx, h⟩ := bind_eq_ok.1 h
  obtain ⟨rows, hr, h⟩ := bind_eq_ok.1 h
  cases h
  obtain ⟨hk, hv⟩ := of_mapM (P := fun e => m.successors e.1 = .ok e.2) (fun _ _ => row_eq) hr
  have hnd : (Flow.blocks ⟨rows⟩).Nodup := by
    rw [Flow.blocks, hk]
    exact (OrderedSet.ofList x.blocks).nodup
  have hmem : ∀ b, b ∈ Flow.blocks ⟨rows⟩ ↔ m.HasBlock f b := by
    intro b
    rw [Flow.blocks, hk, ← OrderedSet.mem_def, OrderedSet.mem_ofList]
    simp [HasBlock, hx]
  refine ⟨hnd, hmem, fun b hb => ?_⟩
  obtain ⟨ss, hm⟩ := Flow.mem_blocks.1 ((hmem b).2 hb)
  rw [Flow.successors_eq hnd hm]
  exact hv _ hm

theorem next_iff (h : m.flow f = .ok g) : s ∈ g.next b ↔ m.Goes f b s := by
  obtain ⟨-, hb, hs⟩ := flow_eq h
  constructor
  · intro hn
    have hbb := (hb b).1 (Flow.mem_blocks_of_mem_next hn)
    obtain ⟨hss, hsb⟩ := Flow.mem_next.1 hn
    exact ⟨hbb, (hb s).1 hsb, _, hs b hbb, hss⟩
  · rintro ⟨hbb, hsb, l, hl, hsl⟩
    rw [hs b hbb] at hl
    cases hl
    exact Flow.mem_next.2 ⟨hsl, (hb s).2 hsb⟩

theorem exit_iff (h : m.flow f = .ok g) : b ∈ g.exits ↔ m.IsExit f b := by
  obtain ⟨hnd, hb, hs⟩ := flow_eq h
  rw [Flow.mem_exits hnd, hb]
  refine and_congr_right fun hbb => ?_
  rw [hs b hbb, Except.ok.injEq]

theorem exitWay_iff (h : m.flow f = .ok g) {p : List BlockId} :
    g.ExitWay b p ↔ m.ExitWay f b p := by
  constructor <;> intro hw
  · exact hw.mono (fun _ _ _ _ => (next_iff h).1) fun _ _ => (exit_iff h).1
  · exact hw.mono (fun _ _ _ _ => (next_iff h).2) fun _ _ => (exit_iff h).2

theorem escapes_iff (h : m.flow f = .ok g) : g.Escapes b ↔ ∃ p, m.ExitWay f b p :=
  exists_congr fun _ => exitWay_iff h

theorem forces_iff (h : m.flow f = .ok g) : g.Forces b x ↔ ∀ p, m.ExitWay f b p → x ∈ p :=
  forall_congr' fun _ => imp_congr_left (exitWay_iff h)

/-- The scope that a flow tells of a block holds what the successors of the block decide. -/
theorem mem_decidedBy (h : m.flow f = .ok g) (hs : m.Goes f b s) :
    x ∈ Flow.decidedBy (.ofFlow g) b s ↔ m.Decides f b s x := by
  obtain ⟨hnd, -, -⟩ := flow_eq h
  have hsn : s ∈ g.next b := (next_iff h).2 hs
  unfold Decides Flow.decidedBy
  simp only [← not_exists, ← escapes_iff h, ← forces_iff h]
  by_cases hse : g.Escapes s
  · have hbe : g.Escapes b := .of_next hsn hse
    have hout : x ∉ (PostDominance.ofFlow g).chain b ↔ ∃ p, m.ExitWay f b p ∧ x ∉ p := by
      rw [Flow.mem_chain hnd, forces_iff h]
      simp [hbe]
    have hne := Flow.chain_ne_nil hnd hse
    split
    · contradiction
    · simp [List.mem_filter, Flow.mem_chain hnd, hse, ← hout]
  · rw [Flow.chain_eq_nil hnd hse]
    simp [hse]

/-- The control flow of a function of a closed module can be told. -/
theorem IsClosed.exists_flow (hm : m.IsClosed) (hf : f.index < m.functions.size) :
    ∃ g, m.flow f = .ok g := by
  obtain ⟨x, hx⟩ := exists_function hf
  have hall : ∀ b ∈ (OrderedSet.ofList x.blocks).toList,
      ∃ e, (do return (b, ← m.successors b) : Except Missing _) = .ok e := by
    intro b hb
    obtain ⟨y, hy⟩ := hm.block_of_mem hx (OrderedSet.mem_ofList.1 hb)
    obtain ⟨l, hl⟩ := hm.exists_successors hy
    exact ⟨(b, l), bind_eq_ok.2 ⟨l, hl, rfl⟩⟩
  obtain ⟨rows, hr⟩ := exists_mapM hall
  exact ⟨⟨rows⟩, bind_eq_ok.2 ⟨x, hx, bind_eq_ok.2 ⟨rows, hr, rfl⟩⟩⟩

end Module

/-! ## Kept scopes -/

namespace ScopeCache

/-- A cache that was filled by queries about the module `m` and no other. What was worked out for
another module would be answered for this one as well. -/
inductive Filled (m : Module) : ScopeCache → Prop where
  | empty : Filled m ⟨.empty⟩
  | query {c c' : ScopeCache} {f : FunctionId} {b : BlockId} {l : List BlockId} :
      Filled m c → c.query m f b = .ok (l, c') → Filled m c'

variable {m : Module} {c : ScopeCache} {f : FunctionId}

/-- What is known is what would be worked out. -/
theorem Filled.known_eq (h : Filled m c) {scope : BlockId → List BlockId}
    (hk : c.known.get? f = some scope) : postDominanceScopes m f = .ok scope := by
  induction h generalizing f scope with
  | empty => cases hk
  | @query c c' h b l _ hq ih =>
    unfold ScopeCache.query at hq
    split at hq
    · cases hq
      exact ih hk
    · obtain ⟨scope', hs, hq⟩ := bind_eq_ok.1 hq
      cases hq
      rw [OrderedMap.get?_insert] at hk
      split at hk
      · rename_i hf
        cases hk
        rw [hf]
        exact hs
      · exact ih hk

/-- A query answers the same whatever was asked about the module before. -/
theorem Filled.query_eq (h : Filled m c) {scope : BlockId → List BlockId}
    (hs : postDominanceScopes m f = .ok scope) (b : BlockId) :
    ∃ c', c.query m f b = .ok (scope b, c') := by
  unfold ScopeCache.query
  cases hk : c.known.get? f with
  | none => exact ⟨_, bind_eq_ok.2 ⟨scope, hs, rfl⟩⟩
  | some scope' =>
    have he := h.known_eq hk
    rw [hs] at he
    cases he
    exact ⟨c, rfl⟩

end ScopeCache

namespace Module

variable {m : Module} {f : FunctionId}

/-- The control scopes of a function of a closed module can be told, also from a cache, whatever was
asked about this module before. A block that is not in the function or has less than two successors
has an empty scope. The scope of any other block lists, without repetition, what is decided by
control going to one of its successors, in the order in which climbs along immediate post-dominators
come by it. Such post-dominators there are in each flow, and it does not matter how they are found. -/
theorem IsClosed.control_dependence (hm : m.IsClosed) (hf : f.index < m.functions.size) :
    ∃ scope, postDominanceScopes m f = .ok scope ∧
      (∀ b, ¬ m.HasBlock f b → scope b = []) ∧
      (∀ b, m.HasBlock f b → ∃ l, m.successors b = .ok l ∧
        (l.length < 2 → scope b = []) ∧
        (2 ≤ l.length → ∀ x, x ∈ scope b ↔ ∃ s, m.Goes f b s ∧ m.Decides f b s x)) ∧
      (∀ b, (scope b).Nodup) ∧
      (∀ c b, ScopeCache.Filled m c → ∃ c', c.query m f b = .ok (scope b, c')) ∧
      ∃ g, m.flow f = .ok g ∧ ImmediateDominators g.Turned none g.nearest ∧
        ∀ idom, ImmediateDominators g.Turned none idom →
          ∃ climb : BlockId → BlockId → List BlockId,
            (∀ b s, m.Goes f b s → Flow.Climb idom (idom (some b)) (some (some s)) (climb b s)) ∧
            ∀ b, 2 ≤ (g.successors b).length →
              scope b = (OrderedSet.ofList ((g.next b).flatMap (climb b))).toList := by
  obtain ⟨g, hg⟩ := hm.exists_flow hf
  obtain ⟨hnd, hblocks, hsucc⟩ := flow_eq hg
  have hscope : postDominanceScopes m f = .ok (g.scope (.ofFlow g)) :=
    bind_eq_ok.2 ⟨g, hg, rfl⟩
  refine ⟨g.scope (.ofFlow g), hscope, ?_, ?_, ?_, ?_, g, hg,
    Flow.immediateDominators_nearest hnd, ?_⟩
  · intro b hb
    have hnil := Flow.successors_eq_nil_of_not_mem fun h => hb ((hblocks b).1 h)
    rw [Flow.scope, hnil]
    rfl
  · intro b hb
    refine ⟨_, hsucc b hb, fun hl => if_pos hl, fun hl x => ?_⟩
    rw [Flow.scope, if_neg (Nat.not_lt.2 hl), ← OrderedSet.mem_def, OrderedSet.mem_ofList,
      List.mem_flatMap]
    constructor
    · rintro ⟨s, hs, hx⟩
      -- ways and edges are told by the flow, decisions by the climb from each successor
      have hgo := (next_iff hg).1 hs
      exact ⟨s, hgo, (mem_decidedBy hg hgo).1 hx⟩
    · rintro ⟨s, hgo, hx⟩
      exact ⟨s, (next_iff hg).2 hgo, (mem_decidedBy hg hgo).2 hx⟩
  · intro b
    unfold Flow.scope
    split
    · exact List.nodup_nil
    · exact (OrderedSet.ofList _).nodup
  · exact fun c b hc => hc.query_eq hscope b
  · intro idom hidom
    refine ⟨Flow.decidedBy (.ofFlow g), fun b s hgo => ?_, fun b hl => if_neg (Nat.not_lt.2 hl)⟩
    exact Flow.climb_decidedBy hnd hidom ((next_iff hg).2 hgo)

/-- A module to look at: in `f`, block 1 goes to block 2, which comes back, or to block 3, an exit.
-/
def loop : Module where
  name := "loop"
  functions := #[⟨"f", ⟨0⟩, [⟨1⟩], false, .void, [⟨0⟩, ⟨1⟩, ⟨2⟩, ⟨3⟩]⟩]
  blocks := #[⟨⟨0⟩, none, [⟨2⟩]⟩, ⟨⟨0⟩, none, [⟨3⟩]⟩, ⟨⟨0⟩, none, [⟨4⟩]⟩, ⟨⟨0⟩, none, [⟨5⟩]⟩]
  values := #[⟨.function ⟨0⟩, .ptr 0, none⟩, ⟨.argument ⟨0⟩ 0, .int 1, none⟩,
    ⟨.instruction ⟨⟨0⟩, ⟨0⟩, .branch ⟨1⟩⟩, .void, none⟩,
    ⟨.instruction ⟨⟨0⟩, ⟨1⟩, .condBranch ⟨1⟩ ⟨2⟩ ⟨3⟩⟩, .void, none⟩,
    ⟨.instruction ⟨⟨0⟩, ⟨2⟩, .branch ⟨1⟩⟩, .void, none⟩,
    ⟨.instruction ⟨⟨0⟩, ⟨3⟩, .ret none⟩, .void, none⟩]
  globals := []

/-- The branch of the loop decides whether the block that it stands in runs again: a climb from block
2 along the immediate dominators of the flow turned round comes by block 1 on its way to block 3,
where it stops. -/
theorem loop_decides_itself : Module.loop.IsClosed ∧
    ∃ scope g, ∃ climb : BlockId → BlockId → List BlockId,
      postDominanceScopes .loop ⟨0⟩ = .ok scope ∧ (⟨1⟩ : BlockId) ∈ scope ⟨1⟩ ∧
      Module.loop.flow ⟨0⟩ = .ok g ∧ ImmediateDominators g.Turned none g.nearest ∧
      g.nearest (some ⟨2⟩) = some (some ⟨1⟩) ∧ g.nearest (some ⟨1⟩) = some (some ⟨3⟩) ∧
      Flow.Climb g.nearest (some (some ⟨3⟩)) (some (some ⟨2⟩)) (climb ⟨1⟩ ⟨2⟩) ∧
      scope ⟨1⟩ = (OrderedSet.ofList ((g.next ⟨1⟩).flatMap (climb ⟨1⟩))).toList := by
  have hclosed : Module.loop.IsClosed := by
    unfold IsClosed
    decide
  obtain ⟨scope, hs, -, hmem, -, -, g, hg, hidom, hclimbs⟩ :=
    hclosed.control_dependence (f := ⟨0⟩) (by decide)
  obtain ⟨climb, hclimb, horder⟩ := hclimbs g.nearest hidom
  have h1 : Module.loop.HasBlock ⟨0⟩ ⟨1⟩ := ⟨_, rfl, by decide⟩
  have h2 : Module.loop.HasBlock ⟨0⟩ ⟨2⟩ := ⟨_, rfl, by decide⟩
  have h3 : Module.loop.HasBlock ⟨0⟩ ⟨3⟩ := ⟨_, rfl, by decide⟩
  have hin : Module.loop.Goes ⟨0⟩ ⟨1⟩ ⟨2⟩ := ⟨h1, h2, _, rfl, by decide⟩
  have hback : Module.loop.Goes ⟨0⟩ ⟨2⟩ ⟨1⟩ := ⟨h2, h1, _, rfl, by decide⟩
  have hout : Module.loop.Goes ⟨0⟩ ⟨1⟩ ⟨3⟩ := ⟨h1, h3, _, rfl, by decide⟩
  have hexit : Module.loop.ExitWay ⟨0⟩ ⟨1⟩ [⟨1⟩, ⟨3⟩] := .step hout (.last ⟨h3, rfl⟩)
  -- control goes from block 2 to block 1 and nowhere else, and block 3 is the only exit
  have hagain : ∀ p, Module.loop.ExitWay ⟨0⟩ ⟨2⟩ p → (⟨1⟩ : BlockId) ∈ p := by
    intro p hp
    cases hp with
    | last he => cases he.2
    | step hs hp =>
      obtain ⟨-, -, l, hl, hsl⟩ := hs
      cases hl
      cases List.mem_singleton.1 hsl
      exact List.mem_cons_of_mem _ hp.mem
  have hleave : ∀ p, Module.loop.ExitWay ⟨0⟩ ⟨1⟩ p → (⟨3⟩ : BlockId) ∈ p := by
    intro p hp
    obtain ⟨e, hep, he⟩ := hp.exists_end
    have honly : g.exits = [⟨3⟩] := by
      cases hg
      rfl
    rw [← exit_iff hg, honly, List.mem_singleton] at he
    exact he ▸ hep
  have hscope : (⟨1⟩ : BlockId) ∈ scope ⟨1⟩ := by
    obtain ⟨l, hl, -, hiff⟩ := hmem ⟨1⟩ h1
    cases hl
    exact (hiff (by decide) _).2 ⟨⟨2⟩, hin, .inr ⟨⟨_, .step hback hexit⟩, hagain, .inl rfl⟩⟩
  have hnd : g.blocks.Nodup := (flow_eq hg).1
  have habove : g.nearest (some ⟨2⟩) = some (some ⟨1⟩) :=
    Flow.nearest_of_next hnd ((escapes_iff hg).2 ⟨_, .step hback hexit⟩) ((next_iff hg).2 hback)
      (by decide) ((forces_iff hg).2 hagain)
  have hstop : g.nearest (some ⟨1⟩) = some (some ⟨3⟩) :=
    Flow.nearest_of_next hnd ((escapes_iff hg).2 ⟨_, hexit⟩) ((next_iff hg).2 hout)
      (by decide) ((forces_iff hg).2 hleave)
  have htwo : 2 ≤ (g.successors ⟨1⟩).length := by
    cases hg
    decide
  exact ⟨hclosed, scope, g, climb, hs, hscope, hg, hidom, habove, hstop,
    hstop ▸ hclimb _ _ hin, horder _ htwo⟩

end Module

end Sdg
