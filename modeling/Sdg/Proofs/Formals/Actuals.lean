import Sdg.Proofs.Formals.Closure
import Sdg.Proofs.Registry.Pieces

/-!
# Actual parameters

Binding the actual parameters of a call changes no graph. It gives the call the pairs that it lacks
and draws both data edges of every binding.

Main result:

* `bindActuals_spec` — afterwards the call has bound all formal parameters of the graph.
-/

namespace Sdg

namespace Work

open Registry

variable {e : Setup} {r : Registry} {c : NodeId} {g h : GraphId} {v : ValueId}
  {formal : ParameterPair}

/-- What binding does: it spreads parameters and leaves all graphs as they are. -/
structure Equips (e : Setup) (r s : Registry) : Prop where
  spreads : Spreads e r s
  graphs : ∀ g, s.graph? g = r.graph? g

theorem Equips.refl (e : Setup) (r : Registry) : Equips e r r := ⟨.refl, fun _ => rfl⟩

theorem Equips.trans {s t : Registry} (h : Equips e r s) (k : Equips e s t) : Equips e r t :=
  ⟨h.spreads.trans k.spreads, fun g => (k.graphs g).trans (h.graphs g)⟩

theorem Equips.settles {s : Registry} (h : Equips e r s) : Settles e r s :=
  .of_graphs h.spreads h.graphs

theorem Equips.grows {s : Registry} (h : Equips e r s) : r.Grows s := h.spreads.grows

theorem Equips.formals?_eq {s : Registry} (h : Equips e r s) (g : GraphId) :
    s.formals? g = r.formals? g := by
  rw [formals?, formals?, h.graphs]

/-- A new actual parameter with its edges. -/
theorem equips_giveActual {args : List ValueId} {x : Node} {s : Slot}
    (hc : r.IsCall e.program c h args) (hx : r.node? c = some x) (hv : x.actuals.Vacant s)
    (hs : s = .own v ∨ s = .global v) :
    Equips e r (((r.giveActual c h (.value v) s).control c r.nextPair.input).control c
      r.nextPair.output) := by
  have hgive : Spread e r (r.giveActual c h (.value v) s) :=
    .actual hc hx hv fun _ => Parameters.key_eq_of_slot hs
  -- the call and both new nodes are live by now
  have hc' := node?_giveActual hx h (.value v) s c
  rw [if_neg (ne_nextPair hx), if_pos rfl] at hc'
  have hi := node?_giveActual hx h (.value v) s r.nextPair.input
  rw [if_pos (Or.inl rfl)] at hi
  have ho := node?_giveActual hx h (.value v) s r.nextPair.output
  rw [if_pos (Or.inr rfl)] at ho
  have hcontrol : Spread e _ ((r.giveActual c h (.value v) s).control c r.nextPair.input) :=
    .control hc' hi
  obtain ⟨_, hc'', _⟩ := hcontrol.grows.node c _ hc'
  obtain ⟨_, ho', _⟩ := hcontrol.grows.node _ _ ho
  refine ⟨.tail (.tail (.single hgive) hcontrol) (.control hc'' ho'), fun k => ?_⟩
  simp

/-- The pair under which a call passes `v` is there afterwards. -/
theorem actualPair_spec {args : List ValueId} (hc : r.IsCall e.program c h args)
    (isGlobal : Bool) : wp Fault.Genuine (actualPair c h v isGlobal)
      (fun q s => Equips e r s ∧ s.actual? c v = some q) r := by
  refine wp_actualPair isGlobal (fun x q hx hq => ?_) fun x s hx hs hv => ?_
  · -- the call has the pair already
    refine ⟨.refl e r, ?_⟩
    rw [actual?, hx]
    exact hq
  · refine ⟨equips_giveActual hc hx hv hs, ?_⟩
    have hfound : (r.giveActual c h (.value v) s).actual? c v = some r.nextPair := by
      rw [actual?, node?_giveActual hx, if_neg (ne_nextPair hx), if_pos rfl]
      exact Parameters.find?_put hv hs
    simpa [actual?, node?_control, Option.bind_map, Function.comp_def, Node.actuals] using hfound

/-- A value that the call hands over, with both data edges. -/
theorem bind_spec {args : List ValueId} (hc : r.IsCall e.program c h args)
    (hb : r.Binds e.program c g v formal) (isGlobal : Bool) :
    wp Fault.Genuine (bind c h v formal isGlobal) (fun _ s => Equips e r s ∧ ∃ actual,
      s.actual? c v = some actual ∧ s.Feeds actual.input formal.input ∧
        s.Feeds formal.output actual.output) r := by
  unfold bind
  refine wp_bind (actualPair_spec hc isGlobal) ?_
  intro actual s hpost
  obtain ⟨hs, ha⟩ := hpost
  refine wp_addData fun x y hx hy => wp_last (wp_addData fun x' y' hx' hy' => wp_pure ?_)
  -- both edges are there for the binding, which is still one after the first edge
  have hb' := hb.grows hs.grows
  have h1 : Spread e s (s.feed actual.input formal.input) :=
    .feed hx hy (.passed hb' ha rfl rfl)
  have h2 : Spread e _ ((s.feed actual.input formal.input).feed formal.output actual.output) :=
    .feed hx' hy' (.returned (hb'.grows h1.grows) (actual?_grows h1.grows ha) rfl rfl)
  have hfed : (s.feed actual.input formal.input).Feeds actual.input formal.input :=
    (feeds_feed hx).2 (Or.inr ⟨rfl, rfl⟩)
  refine ⟨⟨(hs.spreads.tail h1).tail h2, fun k => by simp [hs.graphs]⟩, actual, ?_, ?_, ?_⟩
  · exact actual?_grows h2.grows (actual?_grows h1.grows ha)
  · exact hfed.grows h2.grows
  · exact (feeds_feed hx').2 (Or.inr ⟨rfl, rfl⟩)

/-- **Binding.** Afterwards the call has bound all formal parameters of the graph. -/
theorem bindActuals_spec {args : List ValueId}
    (hc : r.IsCall e.program c h args) (hlink : r.Calls c g) :
    wp Fault.Genuine (bindActuals e.program c g)
      (fun _ s => Equips e r s ∧ s.Bound e.program c g) r := by
  obtain ⟨x, _, callee, hx, hxh, _, _, hop, _⟩ := id hc
  have hg : g ∈ x.callees := by
    obtain ⟨x', hx', hg⟩ := hlink
    rw [hx] at hx'
    cases hx'
    exact hg
  unfold bindActuals
  refine wp_owner fun k hk => ?_
  have hkh : k = h := hk.inj ⟨x, hx, hxh⟩
  subst hkh
  unfold arguments
  rw [bind_assoc]
  refine wp_node (fun x' hx' => ?_) fun _ => nofun
  rw [hx] at hx'
  cases hx'
  rw [bind_assoc, hop]
  refine wp_ask (fun _ he => ?_) nofun
  cases he
  rw [pure_bind]
  refine wp_graph (fun y hy => ?_) fun _ => nofun
  refine wp_ask (fun f hf => ?_) nofun
  have hbinding : ∀ v q b, (v, q, b) ∈ bindingsOf f.params args y.formals →
      r.Binds e.program c g v q := fun v q b hm =>
    ⟨x, callee, args, y, f, hx, hg, hop, hy, hf, mem_bindingsOf.1 ⟨b, hm⟩⟩
  refine wp_bind (wp_forIn (fun done _ s => Equips e r s ∧ ∀ v q b, (v, q, b) ∈ done →
    ∃ actual, s.actual? c v = some actual ∧ s.Feeds actual.input q.input ∧
      s.Feeds q.output actual.output) ⟨.refl e r, nofun⟩ ?_) ?_
  · intro done hp rest _ s hl hpost
    obtain ⟨v, q, b⟩ := hp
    -- one more binding
    obtain ⟨hs, hdone⟩ := hpost
    have hv : r.Binds e.program c g v q := hbinding v q b (mem_of_split hl)
    refine wp_bind (bind_spec (hc.grows hs.grows) (hv.grows hs.grows) b) ?_
    intro _ t hpost
    obtain ⟨ht, hnew⟩ := hpost
    refine wp_pure ⟨_, rfl, hs.trans ht, fun v' q' b' hm => ?_⟩
    rcases List.mem_append.1 hm with hm | hm
    · -- what was bound before is still bound
      obtain ⟨actual, ha, h1, h2⟩ := hdone v' q' b' hm
      exact ⟨actual, actual?_grows ht.grows ha, h1.grows ht.grows, h2.grows ht.grows⟩
    · cases List.mem_singleton.1 hm
      exact hnew
  · intro _ s hpost
    obtain ⟨hs, hdone⟩ := hpost
    refine wp_pure ⟨hs, fun v q hb => ?_⟩
    -- the graph has the formal parameters that were worked through
    obtain ⟨x', callee', args', y', f', hx', _, hop', hy', hf', hb'⟩ :=
      hb.of_grows hs.grows hlink (hs.formals?_eq g)
    rw [hx] at hx'
    cases hx'
    rw [hop] at hop'
    cases hop'
    rw [hy] at hy'
    cases hy'
    rw [hf] at hf'
    cases hf'
    obtain ⟨b, hm⟩ := mem_bindingsOf.2 hb'
    exact hdone v q b hm

end Work

end Sdg
