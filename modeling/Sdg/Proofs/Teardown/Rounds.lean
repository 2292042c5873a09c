import Sdg.Proofs.Registry.Pieces
import Sdg.Proofs.Teardown.Falling
import Sdg.Proofs.Teardown.Owning

/-!
# Rounds of a teardown

What the pieces of a teardown do, told as progress. No fault is admitted anywhere here. A round
tears down one graph, and the rounds nested in it tear down others, each of which stood before: that
bounds the nesting by the number of graphs. All rounds of a teardown are told about the registry as
it was before the first one, since nothing that a round reads was changed by another in a way that
matters.

Main results:

* `Work.retireNode_spec` — a node is freed with its actual parameters, and its links are given back;
* `Work.destroyWithin_spec` — a round does all that there is to do for the graphs that it opens.
-/

namespace Sdg

open scoped Classical

/-- No fault is admitted. -/
abbrev Fault.Never (_ : Fault) : Prop := False

namespace Progress

open Registry

/-- The graphs that a teardown may still open. -/
noncomputable def waiting (r : Registry) (p : Progress) : Nat :=
  ((Finset.range r.graphs.next).filter fun i => (⟨i⟩ : GraphId) ∉ p.opened).card

/-- The teardown that began with the graph `g` got as far as `p`, where the registry is `s`. -/
structure Stage (r : Registry) (g : GraphId) (p : Progress) (s : Registry) : Prop where
  here : p.At r s
  sound : p.Sound r g
  held : p.Held r

variable {r s : Registry} {p q : Progress} {g h k : GraphId} {c n : NodeId} {x : Node} {y : Graph}

theorem waiting_anti (h : p.opened ⊆ q.opened) : q.waiting r ≤ p.waiting r := by
  apply Finset.card_le_card
  intro i hi
  rw [Finset.mem_filter] at hi ⊢
  exact ⟨hi.1, fun ho => hi.2 (h ho)⟩

/-- Opening a graph leaves fewer of them. -/
theorem waiting_withGraph_lt (hh : h ∉ p.opened) (hy : r.graph? h = some y) :
    (p.withGraph h).waiting r < p.waiting r := by
  have hlt : h.index < r.graphs.next := by
    by_contra hle
    have hnone : r.graph? h = none := Arena.get?_of_next_le (Nat.le_of_not_lt hle)
    rw [hnone] at hy
    cases hy
  have hsub : (p.withGraph h).waiting r ≤ (p.waiting r) := waiting_anti (Set.subset_insert _ _)
  apply Finset.card_lt_card
  -- the graph itself is waiting no more
  rw [Finset.ssubset_iff_of_subset]
  · refine ⟨h.index, ?_, ?_⟩
    · rw [Finset.mem_filter, Finset.mem_range]
      exact ⟨hlt, hh⟩
    · rw [Finset.mem_filter]
      intro hm
      exact hm.2 (Or.inl rfl)
  · intro i hi
    rw [Finset.mem_filter] at hi ⊢
    exact ⟨hi.1, fun ho => hi.2 (Or.inr ho)⟩

/-- Freeing a node is a step of the teardown. -/
theorem Stage.freed (hst : p.Stage r g s) (hm : r.Mirrored) (hk : k ∈ p.opened)
    (ho : r.OwnedBy n k) : (p.withNode n).Stage r g (s.freeNode n) := by
  have ho' := ho
  obtain ⟨x, hx, _⟩ := ho'
  exact ⟨hst.here.freed hm hx, hst.sound.withNode hk ho, hst.held⟩

end Progress

namespace Work

open Registry Progress

variable {m : Module} {r s : Registry} {p : Progress} {g h k : GraphId} {n : NodeId} {x : Node}
  {y : Graph} {destroy : GraphId → Work Unit}

/-- What is asked of a nested round: it does all that there is to do for the graphs that it opens,
if at most `depth` graphs are left to open. -/
def Rounds (r : Registry) (g : GraphId) (depth : Nat) (destroy : GraphId → Work Unit) : Prop :=
  ∀ (p : Progress) (s : Registry) (h : GraphId) (y : Graph), p.waiting r ≤ depth → p.At r s →
    p.Sound r g → (p.withGraph h).Held r → h ∉ p.opened → r.graph? h = some y →
    (∀ S, r.Falls g S → h ∈ S) →
    wp Fault.Never (destroy h)
      (fun _ t => ∃ q : Progress, q.Stage r g t ∧ p.Advance r ∅ q ∧ h ∈ q.opened) s

/-- What became of the link of `n` to `h` once it was given back. -/
structure Given (r : Registry) (n : NodeId) (h : GraphId) (p q : Progress) : Prop where
  advance : p.Advance r {n} q
  link : h ∈ q.opened ∨ (n, h) ∈ q.cut
  others : ∀ k, (n, k) ∈ q.cut → (n, k) ∈ p.cut ∨ k = h

theorem Given.of_opened (hh : h ∈ p.opened) : Given r n h p p :=
  ⟨.refl r _ p, Or.inl hh, fun _ hc => Or.inl hc⟩

theorem Given.of_withLink : Given r n h p (p.withLink n h) where
  advance := .withLink (Set.mem_singleton n) h
  link := Or.inr (Or.inl rfl)
  others k hc := by
    rcases hc with hc | hc
    · exact Or.inr (Prod.mk.inj hc).2
    · exact Or.inl hc

/-- A nested round does nothing about a node of a graph that was open before. -/
theorem Given.trans {q u : Progress} (hg : Given r n h p q) (hk : k ∈ q.opened)
    (ho : r.OwnedBy n k) (hqu : q.Advance r ∅ u) : Given r n h p u where
  advance := hg.advance.trans (hqu.mono (Set.empty_subset _))
  link := hg.link.imp (fun hh => hqu.opened hh) fun hc => hqu.cut hc
  -- the nested round cut no link of this node, which belongs to a graph opened before
  others k' hc := hg.others k' (hqu.mem_cut_of_opened hk ho (Set.notMem_empty n) hc)

/-- Nothing comes of giving back a reference to a graph that is going or gone. -/
theorem unref_going_spec (hat : p.At r s) (hh : h ∈ p.opened) (mayDestroy : Bool) :
    wp Fault.Never (unrefWith destroy h mayDestroy) (fun _ t => p.At r t) s := by
  unfold unrefWith
  apply wp_registry
  cases hz : s.graph? h with
  | none => exact wp_pure hat
  | some z =>
    have hphase : z.phase = .destroying := hat.going h z hh hz
    by_cases h0 : z.refcount = 0
    · simp only [h0, hphase, ne_eq, not_true_eq_false, if_true, if_false]
      exact wp_pure hat
    · simp only [h0, if_false]
      apply wp_modifyRegistry
      rw [reviseGraph_eq hz fun z => { z with refcount := z.refcount - 1 }]
      apply wp_report
      rw [if_neg (by simp [hphase])]
      exact wp_pure (hat.going_reviseGraph hh fun _ => rfl)

/-- A call of a graph that goes gives back its link to `h`. -/
theorem giveBack_spec {depth : Nat} (ht : r.Tearable m g) (hd : Rounds r g depth destroy)
    (hw : p.waiting r ≤ depth) (hst : p.Stage r g s) (hk : k ∈ p.opened) (ho : r.OwnedBy n k)
    (hc : r.Calls n h) (hcut : (n, h) ∉ p.cut) :
    wp Fault.Never (do
      modifyRegistry (·.reviseGraph h fun y => { y with callers := y.callers.erase n })
      unrefWith destroy h (h ≠ k))
      (fun _ t => ∃ q : Progress, q.Stage r g t ∧ Given r n h p q) s := by
  apply wp_modifyRegistry
  by_cases hh : h ∈ p.opened
  · -- the graph goes already, so nobody minds its references any more
    have hat := hst.here.going_reviseGraph hh
      (f := fun y => { y with callers := y.callers.erase n })
      fun _ => rfl
    apply wp_mono (unref_going_spec hat hh _)
    intro _ t hat'
    exact ⟨p, ⟨hat', hst.sound, hst.held⟩, .of_opened hh⟩
  · -- the graph stands and the call is among its callers, so there is a reference
    unfold unrefWith
    apply wp_registry
    obtain ⟨y, hy, hny⟩ := (ht.mirrored.calls n h).1 hc
    have hlost : (p.lost h y).size < y.refcount := hst.held h y n hh hy hny
    have hne : h ≠ k := fun e => hh (e ▸ hk)
    have hsy : s.graph? h = some (p.graph h y) := by
      rw [hst.here.graph h hh, hy, Option.map_some]
    have hat := hst.here.given hh hy hny hcut
    have hz : (s.reviseGraph h fun y => { y with callers := y.callers.erase n }).graph? h =
        some { p.graph h y with callers := (p.graph h y).callers.erase n } := by
      rw [graph?_reviseGraph, if_pos rfl, hsy, Option.map_some]
    have hcount : (p.graph h y).refcount = y.refcount - (p.lost h y).size := rfl
    have hphase : (p.graph h y).phase ≠ .destroying := ht.standing h y hy
    have h0 : (p.graph h y).refcount ≠ 0 := by omega
    have hsound : (p.withLink n h).Sound r g := hst.sound.withLink hc hk ho
    rw [hz]
    simp only [h0, if_false]
    apply wp_modifyRegistry
    rw [reviseGraph_eq hz fun z => { z with refcount := z.refcount - 1 }, reviseGraph_reviseGraph]
    apply wp_report
    by_cases h1 : (p.graph h y).refcount = 1
    · -- it was the last reference
      have hle : y.refcount ≤ ((p.withLink n h).lost h y).size := by
        rw [lost_withLink hny hcut]
        omega
      have hforced : ∀ S, r.Falls g S → h ∈ S := fun S hS =>
        hsound.forced ht.mirrored hy (by omega) hle hS
      have hround := hd (p.withLink n h) _ h y hw hat hsound (hst.held.withLink_withGraph n h) hh hy
        hforced
      simp only [hne, h1, hphase, ne_eq, not_false_eq_true, decide_true, Bool.and_self, if_true]
      apply wp_mono hround
      intro _ t hq
      obtain ⟨q, hstq, hadv, _⟩ := hq
      exact ⟨q, hstq, Given.of_withLink.trans hk ho hadv⟩
    · have hlt : (p.lost h y).size + 1 < y.refcount := by omega
      simp only [h1, decide_false, Bool.and_false, Bool.false_and, Bool.false_eq_true, if_false]
      exact wp_pure ⟨p.withLink n h, ⟨hat, hsound, hst.held.withLink hy hny hcut hlt⟩,
        .of_withLink⟩

/-! ## A node goes -/

/-- All that there is to do for the node `n`, which was `x`, is done. -/
structure Retired (q : Progress) (n : NodeId) (x : Node) : Prop where
  freed : n ∈ q.freed
  actuals : ∀ a ∈ x.actuals.nodes, a ∈ q.freed
  links : ∀ h ∈ x.callees, h ∈ q.opened ∨ (n, h) ∈ q.cut

theorem Retired.mono {q : Progress} {X : Set NodeId} (hr : Retired p n x)
    (hpq : p.Advance r X q) : Retired q n x where
  freed := hpq.freed hr.freed
  actuals a ha := hpq.freed (hr.actuals a ha)
  links h hh := (hr.links h hh).imp (fun ho => hpq.opened ho) fun hc => hpq.cut hc

/-- Nodes of a graph that goes are freed. -/
theorem freeAll_spec {l : List NodeId} (hm : r.Mirrored) (hst : p.Stage r g s)
    (hk : k ∈ p.opened) (hl : ∀ a ∈ l, r.OwnedBy a k) :
    wp Fault.Never (forIn l PUnit.unit fun a _ => do
      modifyRegistry (·.freeNode a)
      pure (ForInStep.yield PUnit.unit))
      (fun _ t => ∃ q : Progress, q.Stage r g t ∧ p.Advance r {a | a ∈ l} q ∧
        ∀ a ∈ l, a ∈ q.freed) s := by
  apply wp_forIn fun done _ t => ∃ q : Progress, q.Stage r g t ∧ p.Advance r {a | a ∈ l} q ∧
    ∀ a ∈ done, a ∈ q.freed
  · exact ⟨p, hst, .refl r _ p, nofun⟩
  · intro done a rest _ t hdone hI
    obtain ⟨q, hstq, hadv, hfreed⟩ := hI
    have ha : a ∈ l := mem_of_split hdone
    apply wp_modifyRegistry
    refine wp_pure ⟨_, rfl, q.withNode a, hstq.freed hm (hadv.opened hk) (hl a ha),
      hadv.trans (.withNode ha), ?_⟩
    intro b hb
    -- the nodes before this one are freed already
    rcases List.mem_append.1 hb with hb | hb
    · exact Or.inr (hfreed b hb)
    · exact Or.inl (List.mem_singleton.1 hb)

/-- A call gives back all its links. -/
theorem giveBackAll_spec {depth : Nat} (ht : r.Tearable m g) (hd : Rounds r g depth destroy)
    (hw : p.waiting r ≤ depth) (hst : p.Stage r g s) (hk : k ∈ p.opened) (ho : r.OwnedBy n k)
    (hx : r.node? n = some x) (hcut : ∀ h, (n, h) ∉ p.cut) :
    wp Fault.Never (forIn (p.node n x).callees.toList PUnit.unit fun h _ => do
      modifyRegistry (·.reviseGraph h fun y => { y with callers := y.callers.erase n })
      unrefWith destroy h (h ≠ k)
      pure (ForInStep.yield PUnit.unit))
      (fun _ t => ∃ q : Progress, q.Stage r g t ∧ p.Advance r {n} q ∧
        ∀ h ∈ x.callees, h ∈ q.opened ∨ (n, h) ∈ q.cut) s := by
  apply wp_mono (wp_forIn (fun done _ t => ∃ q : Progress, q.Stage r g t ∧ p.Advance r {n} q ∧
    (∀ h ∈ done, h ∈ q.opened ∨ (n, h) ∈ q.cut) ∧ ∀ h, (n, h) ∈ q.cut → h ∈ done)
    ⟨p, hst, .refl r _ p, nofun, fun h hc => absurd hc (hcut h)⟩ ?_)
  · intro _ t hq
    obtain ⟨q, hstq, hadv, hlinks, _⟩ := hq
    refine ⟨q, hstq, hadv, fun h hh => ?_⟩
    -- the node has forgotten the graphs that went before
    by_cases hop : h ∈ p.opened
    · exact Or.inl (hadv.opened hop)
    · exact hlinks h (OrderedSet.mem_filter.2 ⟨hh, by simp [hop]⟩)
  · intro done h rest _ t hdone hI
    obtain ⟨q, hstq, hadv, hlinks, honly⟩ := hI
    have hmem : h ∈ (p.node n x).callees.toList := mem_of_split hdone
    have hcalls : r.Calls n h := ⟨x, hx, (OrderedSet.mem_filter.1 hmem).1⟩
    have hnew : (n, h) ∉ q.cut := by
      intro hc
      exact not_mem_of_split (p.node n x).callees.nodup hdone (honly h hc)
    -- what was opened meanwhile leaves less to open, so the next link may nest as deep
    have hwq : q.waiting r ≤ depth := (waiting_anti hadv.opened).trans hw
    have hgive := giveBack_spec ht hd hwq hstq (hadv.opened hk) ho hcalls hnew
    rw [← bind_assoc]
    apply wp_bind hgive
    intro _ t' hq
    obtain ⟨u, hstu, hgiven⟩ := hq
    refine wp_pure ⟨_, rfl, u, hstu, hadv.trans hgiven.advance, ?_, ?_⟩
    · intro j hj
      -- the links before this one are settled, and stay so while this one is given back
      rcases List.mem_append.1 hj with hj | hj
      · exact (hlinks j hj).imp (fun hop => hgiven.advance.opened hop)
          fun hc => hgiven.advance.cut hc
      · rw [List.mem_singleton.1 hj]
        exact hgiven.link
    · intro j hj
      rcases hgiven.others j hj with hj | hj
      · exact List.mem_append_left _ (honly j hj)
      · exact List.mem_append_right _ (List.mem_singleton.2 hj)

/-- A node of a graph that goes is freed with its actual parameters, and its links are given
back. -/
theorem retireNode_spec {depth : Nat} (ht : r.Tearable m g) (hd : Rounds r g depth destroy)
    (hw : p.waiting r ≤ depth) (hst : p.Stage r g s) (hk : k ∈ p.opened) (ho : r.OwnedBy n k)
    (hx : r.node? n = some x) (hfreed : n ∉ p.freed) (hcut : ∀ h, (n, h) ∉ p.cut) :
    wp Fault.Never (retireNode destroy k n) (fun _ t => ∃ q : Progress, q.Stage r g t ∧
      p.Advance r {a | a = n ∨ a ∈ x.actuals.nodes} q ∧ Retired q n x) s := by
  have hsx : s.node? n = some (p.node n x) := by
    rw [hst.here.node n, if_neg hfreed, hx, Option.map_some]
  unfold retireNode
  apply wp_node
  · intro x' hx'
    rw [hsx] at hx'
    cases hx'
    apply wp_bind (giveBackAll_spec ht hd hw hst hk ho hx hcut)
    intro _ t hq
    obtain ⟨q, hstq, hadv, hlinks⟩ := hq
    have hkq : k ∈ q.opened := hadv.opened hk
    have hactuals : ∀ a ∈ x.actuals.nodes, r.OwnedBy a k :=
      fun a ha => ht.housed.ownedBy_of_actual hx ho ha
    -- the links are given back, and now the actual parameters go, and then the node
    apply wp_bind (freeAll_spec ht.mirrored hstq hkq hactuals)
    intro _ t' hu
    obtain ⟨u, hstu, hadvu, hall⟩ := hu
    apply wp_last
    apply wp_modifyRegistry
    have hlast : u.Advance r {a | a = n ∨ a ∈ x.actuals.nodes} (u.withNode n) :=
      .withNode (Or.inl rfl)
    have hqu : q.Advance r {a | a = n ∨ a ∈ x.actuals.nodes} (u.withNode n) :=
      (hadvu.mono fun a ha => Or.inr ha).trans hlast
    refine wp_pure ⟨u.withNode n, hstu.freed ht.mirrored (hadvu.opened hkq) ho, ?_, ?_⟩
    · exact (hadv.mono fun a ha => Or.inl ha).trans hqu
    · refine ⟨Or.inl rfl, fun a ha => Or.inr (hall a ha), fun h hh => ?_⟩
      exact (hlinks h hh).imp (fun hop => hqu.opened hop) fun hc => hqu.cut hc
  · intro hn
    rw [hsx] at hn
    cases hn

/-! ## A graph goes -/

/-- The callers of a graph forget it. -/
theorem forgetAll_spec {l : List NodeId} (hl : l.Nodup) (t : Registry) :
    wp Fault.Never (forIn l PUnit.unit fun c _ => do
      modifyRegistry (·.reviseNode c fun x => { x with callees := x.callees.erase h })
      pure (ForInStep.yield PUnit.unit))
      (fun _ u => (∀ n, u.node? n = if n ∈ l then
          (t.node? n).map fun x => { x with callees := x.callees.erase h } else t.node? n) ∧
        (∀ j, u.graph? j = t.graph? j) ∧ u.nextNode = t.nextNode ∧ u.nextGraph = t.nextGraph ∧
        u.pool = t.pool ∧ u.gathered = t.gathered ∧ u.byFunction = t.byFunction) t := by
  apply wp_forIn fun done _ u => (∀ n, u.node? n = if n ∈ done then
      (t.node? n).map fun x => { x with callees := x.callees.erase h } else t.node? n) ∧
    (∀ j, u.graph? j = t.graph? j) ∧ u.nextNode = t.nextNode ∧ u.nextGraph = t.nextGraph ∧
    u.pool = t.pool ∧ u.gathered = t.gathered ∧ u.byFunction = t.byFunction
  · exact ⟨fun n => by simp, fun _ => rfl, rfl, rfl, rfl, rfl, rfl⟩
  · intro done c rest _ u hdone hI
    obtain ⟨hnode, hgraph, hnn, hng, hp, hga, hf⟩ := hI
    -- no caller is listed twice
    have hc : c ∉ done := not_mem_of_split hl hdone
    apply wp_modifyRegistry
    refine wp_pure ⟨_, rfl, fun n => ?_, fun j => ?_, ?_, ?_, ?_, ?_, ?_⟩
    · rw [node?_reviseNode, hnode n]
      by_cases hn : n = c
      · subst hn
        simp [hc]
      · simp [hn]
    · rw [graph?_reviseNode, hgraph j]
    · rw [nextNode_reviseNode, hnn]
    · rw [nextGraph_reviseNode, hng]
    · rw [pool_reviseNode, hp]
    · rw [gathered_reviseNode, hga]
    · rw [byFunction_reviseNode, hf]

/-- A graph begins to go, and its callers forget it. -/
theorem open_spec (ht : r.Tearable m g) (hat : p.At r s) (hs : p.Sound r g)
    (hheld : (p.withGraph h).Held r) (hh : h ∉ p.opened) (hy : r.graph? h = some y)
    (hforced : ∀ S, r.Falls g S → h ∈ S) :
    wp Fault.Never (forIn (p.graph h y).callers.toList PUnit.unit fun c _ => do
      modifyRegistry (·.reviseNode c fun x => { x with callees := x.callees.erase h })
      pure (ForInStep.yield PUnit.unit)) (fun _ t => (p.withGraph h).Stage r g t)
      (s.reviseGraph h fun z => { z with phase := .destroying }) := by
  have hsy : s.graph? h = some (p.graph h y) := by
    rw [hat.graph h hh, hy, Option.map_some]
  apply wp_mono (forgetAll_spec (p.graph h y).callers.nodup _)
  intro _ t hforgot
  obtain ⟨hnode, hgraph, hnn, hng, hpool, hga, hf⟩ := hforgot
  refine ⟨?_, hs.withGraph hy hforced, hheld⟩
  -- each view of the registry after the loop is that of the open graph
  refine hat.opened ht.mirrored hh ?_ hy ?_ ?_ ?_ ?_ ?_ ?_ ?_ ?_
  · intro j hj e
    exact hh (e ▸ hs.gone hj)
  · intro n
    rw [hnode n, node?_reviseGraph]
    rfl
  · intro j hj
    rw [hgraph j, graph?_reviseGraph, if_neg hj]
  · intro z hz
    rw [hgraph h, graph?_reviseGraph, if_pos rfl, hsy] at hz
    cases hz
    rfl
  · simpa using hnn
  · simpa using hng
  · simpa using hpool
  · simpa using hga
  · simpa using hf

/-- All nodes in the index of a graph that goes are freed with their actual parameters, and their
links are given back. -/
theorem retireAll_spec {depth : Nat} (ht : r.Tearable m g) (hd : Rounds r g depth destroy)
    (hw : p.waiting r ≤ depth) (hst : p.Stage r g s) (hk : k ∈ p.opened)
    (hy : r.graph? k = some y) (hfreed : ∀ n, r.OwnedBy n k → n ∉ p.freed)
    (hcut : ∀ n h, r.OwnedBy n k → (n, h) ∉ p.cut) :
    wp Fault.Never (forIn y.index.values PUnit.unit fun n _ => do
      retireNode destroy k n
      pure (ForInStep.yield PUnit.unit))
      (fun _ t => ∃ q : Progress, q.Stage r g t ∧ p.Advance r {n | r.OwnedBy n k} q ∧
        ∀ n ∈ y.index.values, ∀ x, r.node? n = some x → Retired q n x) s := by
  have howned : ∀ n ∈ y.index.values, r.OwnedBy n k :=
    fun n hn => ht.housed.ownedBy_of_index hy hn
  apply wp_mono (wp_forIn (fun done _ t => ∃ q : Progress, q.Stage r g t ∧
      p.Advance r {n | r.OwnedBy n k} q ∧ (∀ n ∈ done, ∀ x, r.node? n = some x → Retired q n x) ∧
      ∀ n ∈ y.index.values, n ∉ done → n ∉ q.freed ∧ ∀ h, (n, h) ∉ q.cut)
    ⟨p, hst, .refl r _ p, nofun, fun n hn _ =>
      ⟨hfreed n (howned n hn), fun h => hcut n h (howned n hn)⟩⟩ ?_)
  · intro _ t hq
    obtain ⟨q, hstq, hadv, hretired, _⟩ := hq
    exact ⟨q, hstq, hadv, hretired⟩
  · intro done n rest _ t hdone hI
    obtain ⟨q, hstq, hadv, hretired, hrest⟩ := hI
    have hn : n ∈ y.index.values := mem_of_split hdone
    have hnew : n ∉ done := not_mem_of_split (ht.housed.nodup_index hy) hdone
    have ho := howned n hn
    have hnode := ho
    obtain ⟨x, hx, _⟩ := hnode
    -- the node is still to be dealt with
    obtain ⟨hnf, hnc⟩ := hrest n hn hnew
    have hkq : k ∈ q.opened := hadv.opened hk
    have hwq : q.waiting r ≤ depth := (waiting_anti hadv.opened).trans hw
    apply wp_bind (retireNode_spec ht hd hwq hstq hkq ho hx hnf hnc)
    intro _ t' hu
    obtain ⟨u, hstu, hqu, hretire⟩ := hu
    refine wp_pure ⟨_, rfl, u, hstu, hadv.trans (hqu.mono ?_), ?_, ?_⟩
    · intro a hpost
      rcases hpost with rfl | ha
      · exact ho
      · exact ht.housed.ownedBy_of_actual hx ho ha
    · intro a ha z hz
      rcases List.mem_append.1 ha with ha | ha
      · exact (hretired a ha z hz).mono hqu
      · rw [List.mem_singleton.1 ha, hx] at hz
        cases hz
        rw [List.mem_singleton.1 ha]
        exact hretire
    · -- the other nodes of the index have not been dealt with meanwhile
      intro a ha hdone'
      have hne : a ≠ n := fun e => hdone' (by simp [e])
      obtain ⟨haf, hac⟩ := hrest a ha fun hd => hdone' (List.mem_append_left _ hd)
      have hX : a ∉ {b | b = n ∨ b ∈ x.actuals.nodes} := by
        intro hp
        rcases hp with hb | hb
        · exact hne hb
        · exact ht.housed.actual_not_mem_index hy hx hb ha
      exact ⟨fun hf => haf (hqu.mem_freed_of_opened hkq (howned a ha) hX hf),
        fun h hc => hac h (hqu.mem_cut_of_opened hkq (howned a ha) hX hc)⟩

/-- When the nodes in the index of a graph and its formal parameters are dealt with, nothing is left
to do for the graph but to erase it. -/
theorem done_of_retired (ht : r.Tearable m g) (hy : r.graph? k = some y)
    (hindex : ∀ n ∈ y.index.values, ∀ x, r.node? n = some x → Retired p n x)
    (hformals : ∀ n ∈ y.formals.nodes, n ∈ p.freed) : (p.withoutGraph k).Done r k where
  freed n ho := by
    -- what the graph owns is in its index, or a parameter
    have hn : n ∈ r.nodesOf {k} := (ht.mem_nodesOf_iff {k}).2 ⟨k, rfl, ho⟩
    obtain ⟨_, rfl, y', hy', hn⟩ := hn
    rw [hy] at hy'
    cases hy'
    rcases hn with hn | hn | ⟨c, x, hc, hx, hn⟩
    · obtain ⟨x, hx, _⟩ := ho
      exact (hindex n hn x hx).freed
    · exact hformals n hn
    · exact (hindex c hc x hx).actuals n hn
  links c h ho hc := by
    obtain ⟨j, args, hcall⟩ := ht.linked c h hc
    obtain ⟨y', hy', hci⟩ := hcall.mem_index ho
    rw [hy] at hy'
    cases hy'
    obtain ⟨x, hx, hh⟩ := hc
    exact (hindex c hci x hx).links h hh
  gone := Or.inl rfl

/-- A round does all that there is to do for the graphs that it opens. -/
theorem destroyWithin_spec (ht : r.Tearable m g) (depth : Nat) :
    Rounds r g depth (destroyWithin depth) := by
  induction depth with
  | zero =>
    intro p s h y hw _ _ _ hh hy _
    -- there is a graph to open, so there is depth left
    have hlt := waiting_withGraph_lt hh hy
    omega
  | succ depth ih =>
    intro p s h y hw hat hs hheld hh hy hforced
    have hlt := waiting_withGraph_lt hh hy
    have hw' : (p.withGraph h).waiting r ≤ depth := by omega
    have hsy : s.graph? h = some (p.graph h y) := by
      rw [hat.graph h hh, hy, Option.map_some]
    have hphase : (p.graph h y).phase ≠ .destroying := ht.standing h y hy
    -- nothing was done yet for the graph
    have hfreed : ∀ n, r.OwnedBy n h → n ∉ p.freed := by
      intro n ho hn
      obtain ⟨k, hk, hok⟩ := hs.owned n hn
      have hhk : h = k := OwnedBy.inj ho hok
      exact hh (hhk ▸ hk)
    have hcut : ∀ n j, r.OwnedBy n h → (n, j) ∉ p.cut := by
      intro n j ho hc
      obtain ⟨_, k, hk, hok⟩ := hs.links n j hc
      have hhk : h = k := OwnedBy.inj ho hok
      exact hh (hhk ▸ hk)
    unfold destroyWithin
    apply wp_graph
    case hbad =>
      intro hn
      rw [hsy] at hn
      cases hn
    intro z hz
    rw [hsy] at hz
    cases hz
    rw [if_neg hphase]
    apply wp_modifyRegistry
    rw [reviseGraph_eq hsy fun z => { z with phase := .destroying }]
    apply wp_report
    -- the graph is opened, its nodes go one by one, and then its formal parameters and itself
    apply wp_bind (open_spec ht hat hs hheld hh hy hforced)
    intro _ t hst
    have hk : h ∈ (p.withGraph h).opened := Or.inl rfl
    apply wp_bind (retireAll_spec ht ih hw' hst hk hy hfreed hcut)
    intro _ t' hq
    obtain ⟨q, hstq, hadv, hindex⟩ := hq
    have hformals : ∀ a ∈ y.formals.nodes, r.OwnedBy a h :=
      fun a ha => ht.housed.ownedBy_of_formal hy ha
    apply wp_bind (freeAll_spec ht.mirrored hstq (hadv.opened hk) hformals)
    intro _ t'' hu
    obtain ⟨u, hstu, hqu, hall⟩ := hu
    apply wp_last
    apply wp_modifyRegistry
    have hku : h ∈ u.opened := hqu.opened (hadv.opened hk)
    have hindex' : ∀ n ∈ y.index.values, ∀ x, r.node? n = some x → Retired u n x :=
      fun n hn x hx => (hindex n hn x hx).mono hqu
    have hdone := done_of_retired ht hy hindex' hall
    have hpu := Advance.close hh (hadv.trans (hqu.mono hformals)) hdone
    have herased : (u.withoutGraph h).At r (t''.removeGraph y.function h) :=
      hstu.here.erased ht.enrolled hku hy
    exact wp_pure ⟨u.withoutGraph h,
      ⟨herased, hstu.sound.withoutGraph hku, hstu.held⟩, hpu, hku⟩

end Work

end Sdg
