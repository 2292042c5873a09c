import Sdg.Proofs.Safety.Bodies

/-!
# Edges between blocks without faults

Once all blocks were visited nothing comes to the body of a graph but edges. What these name is
there: the successors of a block and the blocks in a scope are blocks of the function, and so are
those that flow into a phi.

Main results:

* `addSuccessors_visits` — the edges from a block to its successors can be added;
* `addControls_spares` — so can all control dependence.
-/

namespace Sdg

namespace Work

open Registry

variable {e : Setup} {r s : Registry} {n : NodeId} {g : GraphId} {fn : FunctionId} {b c d : BlockId}
  {x : Function} {vs : List ValueId} {start? : Option BlockId} {y : Graph}

/-! ## Successors -/

/-- The edges from a block can be added. -/
theorem addSuccessors_visits (h : Visiting e g fn x x.blocks vs r none start?)
    (hb : b ∈ x.blocks) :
    wp e.Blames (addSuccessors e.program g b)
      (fun _ s => Visits e r s g x x.blocks vs none start?) r := by
  have hx := h.function
  unfold addSuccessors
  refine wp_ask_sane (fun hsane => ?_) fun l hl => ?_
  · obtain ⟨z, hz⟩ := hsane.program.closed.block_of_mem hx hb
    exact hsane.program.closed.exists_successors hz
  refine wp_bind (wp_forIn (fun _ _ s => Visits e r s g x x.blocks vs none start?)
    (.refl h.underway) ?_) fun _ _ hs => wp_pure hs
  intro done p rest _ s hsplit hs
  obtain ⟨c, position⟩ := p
  have hget := List.mem_zipIdx_iff_getElem?.1 (mem_of_split hsplit)
  have hmem : c ∈ l := List.mem_of_getElem? hget
  have hlt : position < l.length := (List.getElem?_eq_some_iff.1 hget).1
  -- there are labels enough, and the successor is a block of the function
  have hlabel : wp e.Blames (if exitLabel ≤ position then throw (.tooManySuccessors b) else pure ())
      (fun _ t => t = s ∧ position < exitLabel) s := by
    split
    · refine wp_throw_sane nofun fun hsane => ?_
      have hle := (hsane.program.flows fn x b l hx hb hl).1
      omega
    · exact wp_pure ⟨rfl, Nat.lt_of_not_le ‹_›⟩
  refine wp_when (wp_bind hlabel ?_)
  intro _ t hpost
  obtain ⟨rfl, hposition⟩ := hpost
  obtain ⟨y, hy, _, hv⟩ := id hs.underway
  refine wp_graph_live hy (wp_require_sane nofun (fun hsane => ?_) fun u hc => ?_)
  · exact (hv.units c).2 ((hsane.program.flows fn x b l hx hb hl).2 c hmem)
  obtain ⟨w, hw⟩ := (hv.units b).2 hb
  refine wp_addUnitEdge_live hy (fun _ _ _ _ => wp_pure ⟨_, rfl, hs.trans ?_⟩) (fun hn => ?_)
    fun hn => ?_
  · refine .lead (hs.fit h.fit) hs.underway hy hw hc ⟨fun hl => ?_, nofun⟩
    omega
  · rw [hw] at hn
    cases hn
  · rw [show y.unit? (.block c) = some u from hc] at hn
    cases hn

/-! ## Scopes and loops -/

/-- A block of the function can be made to control another. -/
theorem addUnitControl_spares (h : Visiting e g fn x x.blocks vs r none start?)
    (hc : e.Sane → c ∈ x.blocks) (hd : e.Sane → d ∈ x.blocks) :
    wp e.Blames (addUnitControl g (.block c) (.block d)) (fun _ s => Spares e r s) r := by
  obtain ⟨y, hy, _, hv⟩ := h.underway
  refine wp_last (wp_addUnitControl_live hy (fun u w hcu hdw => wp_pure ?_)
    (blames_missingUnit fun hsane => (hv.units c).2 (hc hsane))
    (blames_missingUnit fun hsane => (hv.units d).2 (hd hsane)))
  have hgovern : Evolves e r (r.reviseGraph g fun y => y.govern (.block c) (.block d)) := by
    refine .dress h.fit.orderly g (fun y => .govern y _ _) fun z hz hshaped => ?_
    rw [hy] at hz
    cases hz
    exact hshaped.govern hcu hdw
  exact ⟨hgovern, .reviseGraph hgovern.grows fun _ y _ => .govern y _ _⟩

/-- Only blocks of the function decide. -/
theorem deciders_spec (h : Visiting e g fn x x.blocks vs r none start?) :
    wp e.Blames (deciders g) (fun us s => s = r ∧ ∀ p ∈ us, p.1 ∈ x.blocks ∧
      p.2.key = .block p.1) r := by
  obtain ⟨y, hy, _, hv⟩ := h.underway
  unfold deciders
  refine wp_graph_live hy (wp_pure ⟨rfl, fun p hp => ?_⟩)
  have hget : y.unit? (.block p.1) = some p.2 := OrderedMap.mem_entries.1 (List.mem_filter.1 hp).1
  exact ⟨(hv.units p.1).1 ⟨p.2, hget⟩, (h.fit.orderly.shaped g y hy).keyed _ _ hget⟩

/-- Units that decide can be made to control what is in their scope. -/
theorem addScopeControls_spares (h : Visiting e g fn x x.blocks vs r none start?) :
    wp e.Blames (addScopeControls e g) (fun _ s => Spares e r s) r := by
  obtain ⟨y, hy, rfl⟩ := h.hosts
  unfold addScopeControls
  refine wp_graph_live hy (wp_bind (deciders_spec h) ?_)
  intro us r hpost
  obtain ⟨rfl, hus⟩ := hpost
  split
  · exact wp_pure (.refl e _)
  -- scopes of a sane setup are told, and name blocks of the function alone
  have hscopes : e.Sane → ∃ scope, e.scopes e.program y.function = .ok scope ∧
      ∀ b, ∀ c ∈ scope b, c ∈ x.blocks := by
    intro hsane
    rw [hsane.scopes]
    exact hsane.program.closed.exists_scopes h.function
  refine wp_ask_sane (fun hsane => ?_) fun scope hscope => ?_
  · obtain ⟨scope, hscope, _⟩ := hscopes hsane
    exact ⟨scope, hscope⟩
  refine wp_bind (wp_forIn (fun _ _ s => Spares e r s) (.refl e _) ?_) fun _ _ hs => wp_pure hs
  intro done p rest _ s hsplit hs
  obtain ⟨b, u⟩ := p
  have hb : b ∈ x.blocks := (hus _ (mem_of_split hsplit)).1
  refine wp_bind (wp_forIn (fun _ _ t => Spares e r t) hs ?_) fun _ _ ht => wp_pure ⟨_, rfl, ht⟩
  intro done' c rest' _ t hsplit' ht
  refine wp_bind (addUnitControl_spares (h.aside ht) (fun _ => hb) fun hsane => ?_) ?_
  · obtain ⟨scope', hscope', hblocks⟩ := hscopes hsane
    rw [hscope] at hscope'
    cases hscope'
    exact hblocks b c (mem_of_split hsplit')
  · intro _ t' ht'
    exact wp_pure ⟨_, rfl, ht.trans ht'⟩

/-- Units that decide and may go back to themselves can be made to control themselves. -/
theorem addLoopControls_spares (h : Visiting e g fn x x.blocks vs r none start?) :
    wp e.Blames (addLoopControls g) (fun _ s => Spares e r s) r := by
  unfold addLoopControls
  refine wp_bind (deciders_spec h) ?_
  intro us r hpost
  obtain ⟨rfl, hus⟩ := hpost
  refine wp_bind (wp_forIn (fun _ _ s => Spares e r s) (.refl e _) ?_) fun _ _ hs => wp_pure hs
  intro done p rest _ s hsplit hs
  obtain ⟨b, u⟩ := p
  obtain ⟨hb, hk⟩ := hus _ (List.mem_filter.1 (mem_of_split hsplit)).1
  simp only [show u.key = .block b from hk]
  refine wp_bind (addUnitControl_spares (h.aside hs) (fun _ => hb) fun _ => hb) ?_
  intro _ t ht
  exact wp_pure ⟨_, rfl, hs.trans ht⟩

/-! ## Phis -/

/-- What flows into a phi of the graph is a block of the function. -/
theorem incoming_mem {u : BlockUnit} {z : Node} {incoming : List (ValueId × BlockId)}
    (hsane : e.Sane) (h : Visiting e g fn x x.blocks vs r none start?)
    (hvs : ∀ v ∈ vs, e.program.InBody fn v) (hy : r.graph? g = some y)
    (hu : y.unit? (.block b) = some u) (hn : n ∈ u.nodes)
    (hz : r.node? n = some z) (hop : e.program.operation? z.key = .ok (some (.phi incoming))) :
    ∀ p ∈ incoming, p.2 ∈ x.blocks := by
  obtain ⟨y', hy', _, hv⟩ := h.underway
  rw [hy] at hy'
  cases hy'
  have hr := h.fit.orderly
  have hx := h.function
  -- the node stands for what it is indexed under
  obtain ⟨key, hkey⟩ := (hr.shaped g y hy).nodes _ u hu n hn
  obtain ⟨z', hz', hk, _⟩ := hr.housed.live (.index g key) n (by simp [occupant, hy, hkey])
  rw [hz] at hz'
  cases hz'
  rw [hk] at hop
  rcases hv.keys key n hkey with rfl | ⟨v, hv, rfl⟩ | ⟨kind, rfl, _⟩
  · -- the function itself is no phi
    rw [Module.operation?_value (hsane.program.named fn x hx)] at hop
    cases hop
  · obtain ⟨x', d, w, hx', hd, hw, hvw⟩ := hvs v hv
    rw [hx] at hx'
    cases hx'
    obtain ⟨i, hi, _⟩ := hsane.program.placed d w v hw hvw
    rw [Module.operation?_of_instruction? hi] at hop
    exact hsane.program.phis fn x d w v i incoming hx hd hw hvw hi
      (Option.some.inj (Except.ok.inj hop))
  · cases hop

/-- The edges to a phi can be told, and they are between nodes that are live. -/
theorem phiControlsOf_ends {u : BlockUnit} (h : Visiting e g fn x x.blocks vs r none start?)
    (hvs : ∀ v ∈ vs, e.program.InBody fn v) (hy : r.graph? g = some y)
    (hub : y.unit? (.block b) = some u) (hn : n ∈ u.nodes) :
    wp e.Blames (phiControlsOf e.program g b n) (fun l s => s = r ∧ ∀ p ∈ l,
      (∃ z, r.node? p.1 = some z) ∧ ∃ z, r.node? p.2 = some z) r := by
  obtain ⟨y', hy', hd, hv⟩ := id h.underway
  rw [hy] at hy'
  cases hy'
  -- the node was visited, so its operation has been asked for before
  obtain ⟨z, op?, hz, hop, _⟩ := hd.finished _ u hub n hn nofun
  unfold phiControlsOf
  refine wp_node_live hz (wp_ask (fun op?' hop' => ?_) fun err herr => ?_)
  · rw [hop] at hop'
    cases hop'
    split
    · rename_i incoming
      refine wp_graph_live hy (wp_mapM fun p hp => wp_require_sane nofun (fun hsane => ?_) ?_)
      · -- the block was visited, and so it has nodes
        have hmem := incoming_mem hsane h hvs hy hub hn hz hop p (List.mem_filter.1 hp).1
        obtain ⟨w, hw⟩ := (hv.units p.2).2 hmem
        obtain ⟨last, hlast⟩ := Option.ne_none_iff_exists'.1
          (fun hnone => hd.filled _ w hw (List.getLast?_eq_none_iff.1 hnone))
        exact ⟨last, Option.bind_eq_some_iff.2 ⟨w, hw, hlast⟩⟩
      · intro last hlast
        obtain ⟨w, hw, hlast⟩ := Option.bind_eq_some_iff.1 hlast
        obtain ⟨z', hz', _⟩ := hd.placed (.block p.2) w hw last (List.mem_of_getLast? hlast)
        exact wp_pure ⟨rfl, ⟨z', hz'⟩, z, hz⟩
    · exact wp_pure ⟨rfl, nofun⟩
  · rw [hop] at herr
    cases herr

/-- The blocks that flow into phis can be made to control them. -/
theorem addPhiControls_spares (h : Visiting e g fn x x.blocks vs r none start?)
    (hvs : ∀ v ∈ vs, e.program.InBody fn v) :
    wp e.Blames (addPhiControls e.program g) (fun _ s => Spares e r s) r := by
  obtain ⟨y, hy, _⟩ := h.underway
  unfold addPhiControls
  -- all edges are told before the first one is drawn
  refine wp_graph_live hy (wp_bind (wp_mapM (P := fun l => ∀ p ∈ l,
    (∃ z, r.node? p.1 = some z) ∧ ∃ z, r.node? p.2 = some z) fun q hq => ?_) ?_)
  · have hub : y.unit? (.block q.1) = some q.2 := OrderedMap.mem_entries.1 hq
    refine wp_bind (wp_mapM fun n hn => phiControlsOf_ends h hvs hy hub hn) ?_
    intro ls s hpost
    obtain ⟨rfl, hls⟩ := hpost
    refine wp_pure ⟨rfl, fun p hp => ?_⟩
    obtain ⟨l, hl, hp⟩ := List.mem_flatten.1 hp
    exact hls l hl p hp
  intro edges s hpost
  obtain ⟨rfl, hedges⟩ := hpost
  refine wp_bind (wp_forIn (fun _ _ t => Spares e s t) (.refl e _) ?_) fun _ _ ht => wp_pure ht
  intro done p rest _ t hsplit ht
  obtain ⟨a, b⟩ := p
  obtain ⟨l, hl, hp⟩ := List.mem_flatten.1 (mem_of_split hsplit)
  obtain ⟨⟨za, hza⟩, zb, hzb⟩ := hedges l hl _ hp
  obtain ⟨za', hza', _⟩ := ht.evolves.grows.node _ za hza
  obtain ⟨zb', hzb', _⟩ := ht.evolves.grows.node _ zb hzb
  exact wp_addControl_live hza' hzb' (wp_pure ⟨_, rfl,
    ht.trans (.control (ht.fit h.fit).orderly hza' hzb')⟩)

/-- **Control dependence.** All that the settings ask for can be added. -/
theorem addControls_spares (h : Visiting e g fn x x.blocks vs r none start?)
    (hvs : ∀ v ∈ vs, e.program.InBody fn v) :
    wp e.Blames (addControls e g) (fun _ s => Spares e r s) r := by
  -- each kind is added if it is asked for
  have hif : ∀ (c : Prop) [Decidable c] (w : Work Unit) (s : Registry), Spares e r s →
      (∀ s, Spares e r s → wp e.Blames w (fun _ t => Spares e s t) s) →
      wp e.Blames (if c then w else pure ()) (fun _ t => Spares e r t) s := by
    intro c _ w s hs hw
    split
    · exact wp_mono (hw s hs) fun _ _ ht => hs.trans ht
    · exact wp_pure hs
  unfold addControls
  refine wp_when (wp_bind (hif _ _ r (.refl e _) fun s hs =>
    addScopeControls_spares (h.aside hs)) ?_)
  intro _ s hs
  refine wp_when (wp_bind (hif _ _ s hs fun s hs => addPhiControls_spares (h.aside hs) hvs) ?_)
  intro _ t ht
  exact hif _ _ t ht fun t ht => addLoopControls_spares (h.aside ht)

end Work

end Sdg
