import Sdg.Proofs.Safety.Advances
import Sdg.Proofs.Safety.Blame

/-!
# Parameters without faults

In a fit registry nothing that spreads parameters is at a loss: the graph that gets a parameter has
its entry, the nodes of the pairs to be bound are live, callers are calls of live graphs, and the
functions of graphs can be told. The one thing that may be missing is a value that stands for a heap
object, and then the module is not closed.

Main results:

* `bindActuals_safe`, `absorb_safe`, `discover_safe` — whatever spreads parameters ends, or the
  setup is to blame.
-/

namespace Sdg

/-- A parameter that a call passes something to is in its slot. -/
theorem Binding.exists_at? {declared args : List ValueId} {formals : Parameters} {v : ValueId}
    {q : ParameterPair} (h : Binding declared args formals v q) : ∃ s, formals.at? s = some q := by
  cases h with
  | declared _ _ hf =>
    rw [Parameters.find?_eq, Option.or_eq_some_iff] at hf
    rcases hf with hf | ⟨_, hf⟩
    · exact ⟨_, hf⟩
    · exact ⟨_, hf⟩
  | heap _ ho => exact ⟨.own _, ho⟩
  | global hv => exact ⟨.global _, hv⟩
  | variadic _ _ hv => exact ⟨.variadic, hv⟩

namespace Work

open Registry

variable {e : Setup} {r s : Registry} {c : NodeId} {g h : GraphId}
  {v : ValueId} {y : Graph} {formal : ParameterPair}

/-! ## Binding -/

/-- The pair under which a call passes a value is there, or is made. -/
theorem actualPair_safe {x : Node} (hx : r.node? c = some x) (isGlobal : Bool) :
    Safe e (actualPair c h v isGlobal) r := by
  unfold Safe actualPair actuals
  rw [bind_assoc]
  refine wp_node_live hx ?_
  rw [pure_bind]
  cases (x.actuals?.getD .empty).find? v with
  | some q => exact wp_pure trivial
  | none =>
    refine wp_addPair_live hx ?_
    -- the call is still live when it gets the pair
    have hc : (((r.pushPair h (.value v)).control c r.nextPair.input).control c
        r.nextPair.output).node? c ≠ none := by
      simp [node?_control, ne_nextPair hx, hx]
    obtain ⟨z, hz⟩ := Option.ne_none_iff_exists'.1 hc
    rw [bind_assoc]
    refine wp_node_live hz ?_
    rw [pure_bind]
    exact wp_updateNode_live hz (wp_pure trivial)

theorem bind_safe {args : List ValueId} {xi xo : Node} (hr : r.Orderly e.program)
    (hc : r.IsCall e.program c h args) (hi : r.node? formal.input = some xi)
    (ho : r.node? formal.output = some xo) (isGlobal : Bool) :
    Safe e (bind c h v formal isGlobal) r := by
  obtain ⟨x, _, _, hx, _⟩ := id hc
  unfold Safe bind
  refine wp_bind ((actualPair_safe hx isGlobal).and (actualPair_spec hc isGlobal)) ?_
  intro actual s hpost
  obtain ⟨hs, ha⟩ := hpost
  have hhoused := (hs.spreads.orderly hr).housed
  obtain ⟨zi, hzi⟩ := hhoused.exists_actual ha false
  obtain ⟨zo, hzo⟩ := hhoused.exists_actual ha true
  obtain ⟨xi', hxi', _⟩ := hs.grows.node _ xi hi
  obtain ⟨xo', hxo', _⟩ := hs.grows.node _ xo ho
  refine wp_addData_live hzi hxi' ?_
  -- the first edge frees neither end of the second
  have hfo := node?_feed s actual.input formal.input formal.output
  have hao := node?_feed s actual.input formal.input actual.output
  rw [hxo'] at hfo
  rw [show s.node? actual.output = some zo from hzo] at hao
  exact wp_last (wp_addData_live hfo hao (wp_pure trivial))

theorem bindActuals_safe {args : List ValueId} (hr : r.Fit e.program)
    (hc : r.IsCall e.program c h args) (hlink : r.Calls c g) :
    Safe e (bindActuals e.program c g) r := by
  obtain ⟨x, _, callee, hx, hxh, _, _, hop, _⟩ := id hc
  obtain ⟨x', hx', hg⟩ := id hlink
  rw [hx] at hx'
  cases hx'
  obtain ⟨y, hy, _⟩ := (hr.orderly.mirrored.calls c g).1 hlink
  obtain ⟨f, hf⟩ := (hr.ready g y hy).function
  unfold Safe bindActuals
  refine wp_owner_live ⟨x, hx, hxh⟩ ?_
  unfold arguments
  rw [bind_assoc]
  refine wp_node_live hx ?_
  rw [bind_assoc, hop]
  refine wp_ask (fun _ he => ?_) nofun
  cases he
  rw [pure_bind]
  refine wp_graph_live hy ?_
  rw [hf]
  refine wp_ask (fun _ he => ?_) nofun
  cases he
  refine wp_bind (wp_forIn (fun _ _ s => Equips e r s) (.refl e r) ?_) fun _ _ _ => wp_pure trivial
  intro done hp rest _ s hl hs
  obtain ⟨v, q, b⟩ := hp
  have hb : Binding f.params args y.formals v q := mem_bindingsOf.1 ⟨b, mem_of_split hl⟩
  have hbinds : r.Binds e.program c g v q := ⟨x, callee, args, y, f, hx, hg, hop, hy, hf, hb⟩
  obtain ⟨slot, hq⟩ := hb.exists_at?
  -- the formal parameter has both its nodes
  obtain ⟨xi, hxi⟩ := hr.orderly.housed.exists_formal hy hq false
  obtain ⟨xo, hxo⟩ := hr.orderly.housed.exists_formal hy hq true
  obtain ⟨xi', hxi', _⟩ := hs.grows.node _ xi hxi
  obtain ⟨xo', hxo', _⟩ := hs.grows.node _ xo hxo
  have hc' := hc.grows hs.grows
  refine wp_bind ((bind_safe (hs.spreads.orderly hr.orderly) hc' hxi' hxo' b).and
    (bind_spec hc' (hbinds.grows hs.grows) b)) ?_
  intro _ t hpost
  exact wp_pure ⟨_, rfl, hs.trans hpost.1⟩

/-! ## New formal parameters -/

theorem addSlot_safe (hr : r.Fit e.program) (hy : r.graph? g = some y) (s : Slot) :
    Safe e (addSlot g s v) r := by
  unfold Safe addSlot
  refine wp_graph_live hy ?_
  cases y.formals.contains v with
  | true => exact wp_pure trivial
  | false =>
    obtain ⟨n, x, hn, hx⟩ := hr.exists_entry hy
    simp only [Bool.false_eq_true, if_false, newFormalPair, bind_assoc]
    refine wp_entry_live hy hn (wp_addPair_live hx ?_)
    have hy' : (((r.pushPair g (.value v)).control n r.nextPair.input).control n
        r.nextPair.output).graph? g = some y := by
      simpa using hy
    exact wp_updateGraph_live hy' (wp_pure trivial)

theorem addFormal_safe (hr : r.Fit e.program) (hy : r.graph? g = some y) :
    Safe e (addFormal g v) r := addSlot_safe hr hy (.own v)

theorem addFormalGlobal_safe (hr : r.Fit e.program) (hy : r.graph? g = some y) :
    Safe e (addFormalGlobal g v) r := addSlot_safe hr hy (.global v)

/-! ## Absorbing and propagating -/

/-- Where `propagate` has to come to its end: where there is room for fewer than `k` new
parameters. -/
def PropagatesSafely (e : Setup) (k : Nat) (propagate : GraphId → Work Unit) : Prop :=
  ∀ g s y, s.Fit e.program → s.graph? g = some y → s.room e.program < k → Safe e (propagate g) s

theorem absorbWith_safe {k : Nat} {propagate : GraphId → Work Unit}
    (hp : PropagatesSafely e k propagate) (hr : r.Fit e.program) (hk : r.room e.program ≤ k)
    (hy : r.graph? g = some y) (hl : r.Links g h) :
    Safe e (absorbWith propagate e.program g h) r := by
  obtain ⟨c, _, hcall⟩ := id hl
  obtain ⟨z, hz, _⟩ := (hr.orderly.mirrored.calls c h).1 hcall
  unfold Safe absorbWith
  refine wp_graph_live hz ?_
  -- what stands for a heap object is a value, if the module is closed
  refine wp_bind (heapOf_spec fun v hv err herr => ⟨nofun, fun hsane => ?_⟩) ?_
  · obtain ⟨q, hq⟩ := OrderedMap.mem_keys.1 hv
    obtain ⟨x, hx⟩ := hr.known hsane.program.closed h z v q hz hq
    rw [hx] at herr
    cases herr
  intro heap r hpost
  obtain ⟨rfl, hlt, hheap⟩ := hpost
  -- the caller is live as long as registries only spread
  have hlive : ∀ s, Spreads e r s → ∃ y', s.graph? g = some y' := by
    intro s hs
    obtain ⟨y', hy', _⟩ := hs.grows.graph g y hy
    exact ⟨y', hy'⟩
  have hglobal : ∀ v ∈ z.formals.globals.keys, ∀ s, Spreads e r s →
      wp e.Blames (addFormalGlobal g v) (Adds e s g v) s := by
    intro v hv s hs
    obtain ⟨y', hy'⟩ := hlive s hs
    exact (addFormalGlobal_safe (hr.spreads hs) hy').and (addHandedGlobal_spec hl hz hv hs)
  have hown : ∀ v ∈ heap, ∀ s, Spreads e r s →
      wp e.Blames (addFormal g v) (Adds e s g v) s := by
    intro v hv s hs
    obtain ⟨hv, hn⟩ := (hheap v).1 hv
    obtain ⟨y', hy'⟩ := hlive s hs
    exact (addFormal_safe (hr.spreads hs) hy').and (addHandedHeap_spec hl hz hv hn hs)
  refine wp_bind (addAll_spec [] hglobal (fun v hv => index_lt_of_global hr.orderly hz hv)
    (.refl e r g)) ?_
  intro b₁ s₁ h₁
  refine wp_bind (addAll_spec _ hown (fun v hv => hlt v ((hheap v).1 hv).1) h₁) ?_
  intro b s hs
  cases b with
  | false => exact wp_pure trivial
  | true =>
    obtain ⟨y', hy'⟩ := hlive s hs.spreads
    exact wp_report (hp g s y' (hr.spreads hs.spreads) hy'
      (Nat.lt_of_lt_of_le (hs.new rfl) hk))

theorem propagateRound_safe {k : Nat} {nested : GraphId → Work Unit}
    (hp : Propagates e k nested) (hp' : PropagatesSafely e k nested) (hr : r.Fit e.program)
    (hk : r.room e.program ≤ k) (hy : r.graph? g = some y) :
    Safe e (propagateRound nested e.program g) r := by
  unfold Safe propagateRound
  refine wp_graph_live hy ?_
  refine wp_bind (wp_forIn (fun _ _ s => Spreads e r s) .refl ?_) fun _ _ _ => wp_pure trivial
  intro done c rest _ s hl hs
  have hso := hr.spreads hs
  -- a caller is a call of a live graph
  have hcall : s.Calls c g :=
    ((hr.orderly.mirrored.calls c g).2 ⟨y, hy, mem_of_split hl⟩).grows hs.grows
  obtain ⟨h, args, his⟩ := hso.orderly.linked c g hcall
  obtain ⟨x, z, _, hx, hxh, hz, _⟩ := id his
  refine wp_node_live hx ?_
  rw [hxh]
  have hroom : s.room e.program ≤ k := (room_mono hs).trans hk
  refine wp_bind ((bindActuals_safe hso his hcall).and (bindActuals_spec his hcall)) ?_
  intro _ t hpost
  obtain ⟨ht, _⟩ := hpost
  obtain ⟨z', hz', _⟩ := ht.grows.graph h z hz
  have hlinks : t.Links h g := ⟨c, his.ownedBy.grows ht.grows, hcall.grows ht.grows⟩
  have hroom' : t.room e.program ≤ k := (room_mono ht.spreads).trans hroom
  have hto := hso.spreads ht.spreads
  refine wp_bind ((absorbWith_safe hp' hto hroom' hz' hlinks).and
    (absorbWith_spec hp hto.orderly hroom' hlinks)) ?_
  intro _ u hpost
  exact wp_pure ⟨_, rfl, (hs.trans ht.spreads).trans hpost.1.spreads⟩

/-- Nested rounds come to their end, or the setup is to blame. -/
theorem propagateWithin_safe (e : Setup) :
    ∀ depth, PropagatesSafely e depth (propagateWithin e.program depth)
  | 0 => fun _ _ _ _ _ hroom => absurd hroom (Nat.not_lt_zero _)
  | depth + 1 => fun _ _ _ hr hy hroom =>
    propagateRound_safe (propagateWithin_spec e depth) (propagateWithin_safe e depth) hr
      (Nat.le_of_lt_succ hroom) hy

theorem propagate_safe (hr : r.Fit e.program) (hy : r.graph? g = some y) :
    Safe e (propagate e.program g) r := by
  have hle := r.room_le e.program
  unfold propagate
  exact wp_registry (propagateWithin_safe e _ g r y hr hy (by omega))

/-- A graph can absorb one that it calls. -/
theorem absorb_safe (hr : r.Fit e.program) (hy : r.graph? g = some y) (hl : r.Links g h) :
    Safe e (absorb e.program g h) r :=
  absorbWith_safe (fun _ _ _ hs hy' _ => propagate_safe hs hy') hr (Nat.le_refl _) hy hl

/-- What is discovered can be handed on. -/
theorem discover_safe {add : Work Bool} {event : Event} (hr : r.Fit e.program)
    (hadd : wp e.Blames add (Adds e r g v) r) :
    Safe e (do
      if ← add then
        report event
        propagate e.program g) r := by
  refine wp_bind hadd ?_
  intro b s hs
  cases b with
  | false => exact wp_pure trivial
  | true =>
    obtain ⟨y, hy, _⟩ := hs.contains
    exact wp_report (propagate_safe (hr.spreads hs.spreads) hy)

theorem discoverGlobal_safe (hr : r.Fit e.program) (hy : r.graph? g = some y)
    (hreason : ∀ y, r.graph? g = some y → Reason e r g y (.global v)) :
    Safe e (discoverGlobal e.program g v) r :=
  discover_safe hr ((addFormalGlobal_safe hr hy).and (addFormalGlobal_spec hreason))

theorem discoverHeap_safe (hr : r.Fit e.program) (hy : r.graph? g = some y)
    (hreason : ∀ y, r.graph? g = some y → Reason e r g y (.own v)) :
    Safe e (discoverHeap e.program g v) r :=
  discover_safe hr ((addFormal_safe hr hy).and (addFormal_spec hreason))

end Work

end Sdg
