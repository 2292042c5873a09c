import Sdg.Proofs.Registry.Change

/-!
# Both ends of an edge

Control edges, data edges and links are kept at both ends. `Mirrored` says that the two ends agree,
so that in particular both are live, and every change keeps it.

Main results:

* `Mirrored.change` — a change keeps both ends of every edge in step.
* `Spread.keepsLinks`, `Quiet.keepsLinks` — only a new link changes what is linked.
-/

namespace Sdg

namespace Registry

/-- Both ends of every edge and of every link tell the same. -/
structure Mirrored (r : Registry) : Prop where
  controls : ∀ a b, r.Controls a b ↔ r.ControlledBy b a
  feeds : ∀ a b, r.Feeds a b ↔ r.FedBy b a
  calls : ∀ c g, r.Calls c g ↔ r.CalledBy g c

/-- The nodes of `r` have the same edges in `r'`, and new nodes have none. -/
structure KeepsEdges (r r' : Registry) : Prop where
  old : ∀ n x, r.node? n = some x → ∃ x', r'.node? n = some x' ∧ x'.controls = x.controls ∧
    x'.controlledBy = x.controlledBy ∧ x'.feeds = x.feeds ∧ x'.fedBy = x.fedBy
  new : ∀ n x', r.node? n = none → r'.node? n = some x' →
    ∃ key g? block?, x' = .fresh key g? block?

/-- The links of `r` are those of `r'`. -/
structure KeepsLinks (r r' : Registry) : Prop where
  calls : ∀ c g, r'.Calls c g ↔ r.Calls c g
  old : ∀ g y, r.graph? g = some y → ∃ y', r'.graph? g = some y' ∧ y'.callers = y.callers
  new : ∀ g y', r.graph? g = none → r'.graph? g = some y' → ∀ c, c ∉ y'.callers

variable {r r' r'' : Registry}

/-! ## What is kept -/

/-- A property that new nodes lack and that depends on the edges alone is kept. -/
theorem KeepsEdges.exists_iff (h : r.KeepsEdges r') {P : Node → Prop}
    (hP : ∀ x x', x'.controls = x.controls → x'.controlledBy = x.controlledBy →
      x'.feeds = x.feeds → x'.fedBy = x.fedBy → (P x' ↔ P x))
    (hfresh : ∀ key g? block?, ¬ P (.fresh key g? block?)) (n : NodeId) :
    (∃ x, r'.node? n = some x ∧ P x) ↔ ∃ x, r.node? n = some x ∧ P x := by
  cases hx : r.node? n with
  | none =>
    constructor
    · -- no new node has the property
      intro hq
      obtain ⟨x', hx', hp⟩ := hq
      obtain ⟨key, g?, block?, rfl⟩ := h.new n x' hx hx'
      exact absurd hp (hfresh key g? block?)
    · intro hq
      obtain ⟨x, hn, _⟩ := hq
      cases hn
  | some x =>
    obtain ⟨x', hx', h1, h2, h3, h4⟩ := h.old n x hx
    rw [hx']
    -- an old one looks the same as far as the property goes
    have hiff := hP x x' h1 h2 h3 h4
    constructor
    · intro hq
      obtain ⟨_, he, hp⟩ := hq
      cases he
      exact ⟨x, rfl, hiff.1 hp⟩
    · intro hq
      obtain ⟨_, he, hp⟩ := hq
      cases he
      exact ⟨x', rfl, hiff.2 hp⟩

theorem KeepsEdges.controls_iff (h : r.KeepsEdges r') (a b : NodeId) :
    r'.Controls a b ↔ r.Controls a b :=
  h.exists_iff (fun _ _ h1 _ _ _ => by rw [h1]) (fun _ _ _ => OrderedSet.not_mem_empty b) a

theorem KeepsEdges.controlledBy_iff (h : r.KeepsEdges r') (a b : NodeId) :
    r'.ControlledBy a b ↔ r.ControlledBy a b :=
  h.exists_iff (fun _ _ _ h2 _ _ => by rw [h2]) (fun _ _ _ => OrderedSet.not_mem_empty b) a

theorem KeepsEdges.feeds_iff (h : r.KeepsEdges r') (a b : NodeId) :
    r'.Feeds a b ↔ r.Feeds a b :=
  h.exists_iff (fun _ _ _ _ h3 _ => by rw [h3]) (fun _ _ _ => OrderedSet.not_mem_empty b) a

theorem KeepsEdges.fedBy_iff (h : r.KeepsEdges r') (a b : NodeId) :
    r'.FedBy a b ↔ r.FedBy a b :=
  h.exists_iff (fun _ _ _ _ _ h4 => by rw [h4]) (fun _ _ _ => OrderedSet.not_mem_empty b) a

theorem KeepsLinks.calledBy_iff (h : r.KeepsLinks r') (g : GraphId) (c : NodeId) :
    r'.CalledBy g c ↔ r.CalledBy g c := by
  cases hy : r.graph? g with
  | none =>
    constructor
    · -- no call is linked to a new graph
      intro hp
      obtain ⟨y', hy', hc⟩ := hp
      exact absurd hc (h.new g y' hy hy' c)
    · intro hp
      obtain ⟨y, hy', _⟩ := hp
      rw [hy] at hy'
      cases hy'
  | some y =>
    -- an old graph has the same callers
    obtain ⟨y', hy', he⟩ := h.old g y hy
    unfold CalledBy
    rw [hy, hy']
    simp [he]

/-- A graph knows exactly the calls that know it. -/
theorem Mirrored.mem_callers (h : r.Mirrored) {c : NodeId} {g : GraphId} {x : Node} {y : Graph}
    (hx : r.node? c = some x) (hy : r.graph? g = some y) : c ∈ y.callers ↔ g ∈ x.callees := by
  have hiff := h.calls c g
  simp only [Calls, CalledBy, hx, hy, Option.some.injEq, exists_eq_left'] at hiff
  exact hiff.symm

/-- Both ends stay in step where edges and links are kept. -/
theorem Mirrored.of_keeps (h : r.Mirrored) (he : r.KeepsEdges r') (hl : r.KeepsLinks r') :
    r'.Mirrored where
  controls a b := by rw [he.controls_iff, he.controlledBy_iff, h.controls]
  feeds a b := by rw [he.feeds_iff, he.fedBy_iff, h.feeds]
  calls c g := by rw [hl.calls, hl.calledBy_iff, h.calls]

/-! ## Which changes keep what -/

/-- Where nodes are only added, or revised in other respects, edges are kept. -/
theorem KeepsEdges.of_nodes (h : ∀ n, r'.node? n = r.node? n) : r.KeepsEdges r' where
  old n x hx := ⟨x, by rw [h, hx], rfl, rfl, rfl, rfl⟩
  new n x' hn hx' := by rw [h, hn] at hx'; cases hx'

theorem KeepsEdges.of_fresh {key : NodeKey} {g? : Option GraphId} {block? : Option BlockKey}
    (h : ∀ n, r'.node? n = if n = r.nextNode then some (.fresh key g? block?) else r.node? n) :
    r.KeepsEdges r' where
  old n x hx := ⟨x, by rw [h, if_neg (ne_nextNode hx), hx], rfl, rfl, rfl, rfl⟩
  new n x' hn hx' := by
    rw [h, hn] at hx'
    split at hx' <;> cases hx'
    exact ⟨_, _, _, rfl⟩

theorem calls_iff_of_nodes (h : ∀ n, r'.node? n = r.node? n) (c : NodeId) (g : GraphId) :
    r'.Calls c g ↔ r.Calls c g := by
  unfold Calls
  rw [h]

/-- A revised graph whose callers are the same keeps the links. -/
theorem KeepsLinks.reviseGraph {g : GraphId} {f : Graph → Graph}
    (hf : ∀ y, (f y).callers = y.callers) : r.KeepsLinks (r.reviseGraph g f) where
  calls := calls_iff_of_nodes fun n => by simp
  old h y hy := by
    by_cases hh : h = g
    · subst hh
      exact ⟨f y, by simp [hy], hf y⟩
    · exact ⟨y, by simpa [hh] using hy, rfl⟩
  new h y' hn hy' := by
    by_cases hh : h = g <;> simp [hh, hn] at hy'
    subst hh
    rw [hn] at hy'
    obtain ⟨_, he, _⟩ := hy'
    cases he

/-- A new node without links next to the old ones changes no link. -/
theorem calls_iff_of_new {r' : Registry} {P : NodeId → Prop} [DecidablePred P] {x : Node}
    (hP : ∀ n, P n → r.node? n = none) (hx : ∀ g, g ∉ x.callees)
    (h : ∀ n, r'.node? n = if P n then some x else r.node? n) (c : NodeId) (g : GraphId) :
    r'.Calls c g ↔ r.Calls c g := by
  unfold Calls
  rw [h c]
  by_cases hc : P c
  · rw [if_pos hc, hP c hc]
    constructor
    · intro hp
      obtain ⟨_, he, hg⟩ := hp
      cases he
      exact absurd hg (hx g)
    · intro hp
      obtain ⟨_, he, _⟩ := hp
      cases he
  · rw [if_neg hc]

theorem calls_iff_of_fresh {key : NodeKey} {g? : Option GraphId} {block? : Option BlockKey}
    (h : ∀ n, r'.node? n = if n = r.nextNode then some (.fresh key g? block?) else r.node? n)
    (c : NodeId) (g : GraphId) : r'.Calls c g ↔ r.Calls c g :=
  calls_iff_of_new (fun _ hn => hn ▸ r.node?_nextNode) (fun _ => OrderedSet.not_mem_empty _) h c g

end Registry

open Registry

theorem Spread.keepsLinks {e : Setup} {r s : Registry} (h : Spread e r s) : r.KeepsLinks s := by
  cases h with
  | @formal g y key t hg _ _ _ =>
    -- a new pair, and then a revised graph whose callers are the same
    have hl : (r.pushPair g key).KeepsLinks (r.giveFormal g key t) := .reviseGraph fun _ => rfl
    exact ⟨calls_iff_of_new (fun _ => node?_eq_none_of_nextPair)
      (fun _ => OrderedSet.not_mem_empty _) (node?_giveFormal r g key t), hl.old, hl.new⟩
  | @actual c g x args key t _ hx _ _ =>
    refine ⟨fun n h => ?_, fun h y hy => ⟨y, by simpa using hy, rfl⟩,
      fun h y hn hy => by simp [hn] at hy⟩
    unfold Calls
    rw [node?_giveActual hx]
    by_cases hn : n = r.nextPair.input ∨ n = r.nextPair.output
    · -- the new pair has no links, and was not there
      rw [if_pos hn, node?_eq_none_of_nextPair hn]
      simp [Node.fresh]
    · -- of the old nodes the call alone is revised, and its links are the same
      rw [if_neg hn]
      by_cases hc : n = c
      · subst hc
        rw [if_pos rfl, hx]
        simp
      · rw [if_neg hc]
  | @control a b x y _ _ =>
    refine ⟨fun n h => ?_, fun h y hy => ⟨y, by simpa using hy, rfl⟩,
      fun h y hn hy => by simp [hn] at hy⟩
    unfold Calls
    rw [node?_control]
    cases r.node? n <;> simp
  | @feed a b x y _ _ _ =>
    refine ⟨fun n h => ?_, fun h y hy => ⟨y, by simpa using hy, rfl⟩,
      fun h y hn hy => by simp [hn] at hy⟩
    unfold Calls
    rw [node?_feed]
    cases r.node? n <;> simp

theorem Quiet.keepsLinks {m : Module} {r s : Registry} (h : Quiet m r s) : r.KeepsLinks s := by
  cases h with
  | @shared v _ =>
    refine ⟨calls_iff_of_fresh (node?_giveShared r v), fun h y hy => ⟨y, hy, rfl⟩,
      fun h y hn hy => ?_⟩
    rw [graph?_giveShared, hn] at hy
    cases hy
  | graph _ =>
    refine ⟨calls_iff_of_nodes fun _ => rfl,
      fun h y hy => ⟨y, by simpa [ne_nextGraph hy] using hy, rfl⟩, fun h y hn hy c => ?_⟩
    -- a fresh graph has no callers
    rw [graph?_pushGraph] at hy
    split at hy
    · cases hy
      exact OrderedSet.not_mem_empty c
    · rw [hn] at hy
      cases hy
  | @node g y key block? _ _ =>
    -- a new node, and then a revised graph whose callers are the same
    have hl : (r.pushNode (.fresh key (some g) block?)).KeepsLinks (r.giveNode g key block?) :=
      .reviseGraph fun _ => rfl
    exact ⟨calls_iff_of_fresh (node?_giveNode r g key block?), hl.old, hl.new⟩
  | dress hf _ => exact .reviseGraph fun y => (hf y).callers
  | phase _ => exact .reviseGraph fun _ => rfl
  | unseen hnode hgraph _ _ =>
    refine ⟨calls_iff_of_nodes fun n => by rw [hnode], fun h y hy => ⟨y, by rw [hgraph, hy], rfl⟩,
      fun h y hn hy => ?_⟩
    rw [hgraph, hn] at hy
    cases hy
  | recount _ => exact .reviseGraph fun _ => rfl

theorem Quiet.keepsEdges {m : Module} {r s : Registry} (h : Quiet m r s) : r.KeepsEdges s := by
  cases h with
  | @shared v _ => exact .of_fresh (node?_giveShared r v)
  | graph _ => exact .of_nodes fun _ => rfl
  | @node g y key block? _ _ => exact .of_fresh (node?_giveNode r g key block?)
  | dress _ _ => exact .of_nodes fun n => by simp
  | phase _ => exact .of_nodes fun n => by simp
  | unseen hnode _ _ _ => exact .of_nodes fun n => by rw [hnode]
  | recount _ => exact .of_nodes fun n => by simp

/-! ## New edges -/

namespace Registry

variable {r : Registry} {a b c d : NodeId} {g h : GraphId} {x y : Node}

theorem controls_control (ha : r.node? a = some x) :
    (r.control a b).Controls c d ↔ r.Controls c d ∨ c = a ∧ d = b := by
  unfold Controls
  rw [node?_control]
  by_cases hc : c = a
  · subst hc
    simp [ha]
  · cases r.node? c <;> simp [hc]

theorem controlledBy_control (hb : r.node? b = some y) :
    (r.control a b).ControlledBy d c ↔ r.ControlledBy d c ∨ c = a ∧ d = b := by
  unfold ControlledBy
  rw [node?_control]
  by_cases hd : d = b
  · subst hd
    simp [hb]
  · cases r.node? d <;> simp [hd]

theorem feeds_feed (ha : r.node? a = some x) :
    (r.feed a b).Feeds c d ↔ r.Feeds c d ∨ c = a ∧ d = b := by
  unfold Feeds
  rw [node?_feed]
  by_cases hc : c = a
  · subst hc
    simp [ha]
  · cases r.node? c <;> simp [hc]

theorem fedBy_feed (hb : r.node? b = some y) :
    (r.feed a b).FedBy d c ↔ r.FedBy d c ∨ c = a ∧ d = b := by
  unfold FedBy
  rw [node?_feed]
  by_cases hd : d = b
  · subst hd
    simp [hb]
  · cases r.node? d <;> simp [hd]

theorem feeds_control (r : Registry) (a b c d : NodeId) :
    (r.control a b).Feeds c d ↔ r.Feeds c d := by
  unfold Feeds
  rw [node?_control]
  cases r.node? c <;> simp

theorem fedBy_control (r : Registry) (a b c d : NodeId) :
    (r.control a b).FedBy c d ↔ r.FedBy c d := by
  unfold FedBy
  rw [node?_control]
  cases r.node? c <;> simp

theorem controls_feed (r : Registry) (a b c d : NodeId) :
    (r.feed a b).Controls c d ↔ r.Controls c d := by
  unfold Controls
  rw [node?_feed]
  cases r.node? c <;> simp

theorem controlledBy_feed (r : Registry) (a b c d : NodeId) :
    (r.feed a b).ControlledBy c d ↔ r.ControlledBy c d := by
  unfold ControlledBy
  rw [node?_feed]
  cases r.node? c <;> simp

theorem calls_link (hc : r.node? c = some x) (d : NodeId) (h : GraphId) :
    (r.link c g).Calls d h ↔ r.Calls d h ∨ d = c ∧ h = g := by
  unfold Calls
  rw [node?_link]
  by_cases hd : d = c
  · subst hd
    simp [hc]
  · simp [hd]

theorem calledBy_link {z : Graph} (hg : r.graph? g = some z) (h : GraphId) (d : NodeId) :
    (r.link c g).CalledBy h d ↔ r.CalledBy h d ∨ d = c ∧ h = g := by
  unfold CalledBy
  rw [graph?_link]
  by_cases hh : h = g
  · subst hh
    simp [hg]
  · simp [hh]

theorem keepsEdges_link (r : Registry) (c : NodeId) (g : GraphId) : r.KeepsEdges (r.link c g) where
  old n x hx := by
    rw [node?_link, hx]
    split
    · exact ⟨_, rfl, rfl, rfl, rfl, rfl⟩
    · exact ⟨x, rfl, rfl, rfl, rfl, rfl⟩
  new n x' hn hx' := by
    rw [node?_link, hn] at hx'
    split at hx' <;> cases hx'

theorem keepsEdges_giveFormal (r : Registry) (g : GraphId) (key : NodeKey) (s : Slot) :
    r.KeepsEdges (r.giveFormal g key s) where
  old n x hx := ⟨x, by simpa [ne_nextPair hx] using hx, rfl, rfl, rfl, rfl⟩
  new n x' hn hx' := by
    rw [node?_giveFormal, hn] at hx'
    split at hx' <;> cases hx'
    exact ⟨_, _, _, rfl⟩

theorem keepsEdges_giveActual (hc : r.node? c = some x) (g : GraphId) (key : NodeKey) (s : Slot) :
    r.KeepsEdges (r.giveActual c g key s) where
  old n z hz := by
    rw [node?_giveActual hc, if_neg (ne_nextPair hz)]
    by_cases hn : n = c
    · subst hn
      rw [hc] at hz
      cases hz
      -- the call itself, which gets a parameter and no edge
      rw [if_pos rfl]
      exact ⟨_, rfl, rfl, rfl, rfl, rfl⟩
    · rw [if_neg hn]
      exact ⟨z, hz, rfl, rfl, rfl, rfl⟩
  new n x' hn hx' := by
    rw [node?_giveActual hc] at hx'
    by_cases hp : n = r.nextPair.input ∨ n = r.nextPair.output
    · rw [if_pos hp] at hx'
      cases hx'
      exact ⟨_, _, _, rfl⟩
    · -- the call is not new
      have hne : n ≠ c := by
        intro hs
        subst hs
        rw [hn] at hc
        cases hc
      rw [if_neg hp, if_neg hne, hn] at hx'
      cases hx'

end Registry

/-! ## Every change keeps both ends in step -/

theorem Registry.Mirrored.spread {e : Setup} {r s : Registry} (hm : r.Mirrored)
    (h : Spread e r s) : s.Mirrored := by
  have hl := h.keepsLinks
  cases h with
  | formal _ _ _ _ => exact hm.of_keeps (keepsEdges_giveFormal _ _ _ _) hl
  | actual _ hx _ _ => exact hm.of_keeps (keepsEdges_giveActual hx _ _ _) hl
  | control ha hb =>
    -- the new edge shows at both of its ends, and there alone
    refine ⟨fun c d => ?_, fun c d => ?_, fun c g => ?_⟩
    · rw [controls_control ha, controlledBy_control hb, hm.controls]
    · rw [feeds_control, fedBy_control, hm.feeds]
    · rw [hl.calls, hl.calledBy_iff, hm.calls]
  | feed ha hb _ =>
    -- as for control, with the two kinds of edges swapped
    refine ⟨fun c d => ?_, fun c d => ?_, fun c g => ?_⟩
    · rw [controls_feed, controlledBy_feed, hm.controls]
    · rw [feeds_feed ha, fedBy_feed hb, hm.feeds]
    · rw [hl.calls, hl.calledBy_iff, hm.calls]

/-- A new data edge is there for a reason. -/
theorem Change.feeds {e : Setup} {r s : Registry} (h : Change e r s) {a b : NodeId}
    (hf : s.Feeds a b) : r.Feeds a b ∨ r.Flow e.program a b := by
  cases h with
  | spread h =>
    cases h with
    | formal _ _ _ _ => exact Or.inl ((keepsEdges_giveFormal _ _ _ _).feeds_iff a b |>.1 hf)
    | actual _ hx _ _ => exact Or.inl ((keepsEdges_giveActual hx _ _ _).feeds_iff a b |>.1 hf)
    | control _ _ => exact Or.inl ((feeds_control r _ _ a b).1 hf)
    | feed ha _ hflow =>
      rcases (feeds_feed ha).1 hf with hf | ⟨rfl, rfl⟩
      · exact Or.inl hf
      · exact Or.inr hflow
  | quiet h => exact Or.inl ((h.keepsEdges.feeds_iff a b).1 hf)
  | link _ _ _ _ => exact Or.inl (((keepsEdges_link r _ _).feeds_iff a b).1 hf)

/-- **Both ends.** A change keeps both ends of every edge and link in step. -/
theorem Registry.Mirrored.change {e : Setup} {r s : Registry} (hm : r.Mirrored)
    (h : Change e r s) : s.Mirrored := by
  cases h with
  | spread h => exact hm.spread h
  | quiet h => exact hm.of_keeps h.keepsEdges h.keepsLinks
  | @link c g _ _ y hc hg _ _ =>
    obtain ⟨x, _, _, hx, _⟩ := hc
    have he := keepsEdges_link r c g
    -- edges are kept, and the new link shows at the call and at the graph
    refine ⟨fun a b => ?_, fun a b => ?_, fun d h => ?_⟩
    · rw [he.controls_iff, he.controlledBy_iff, hm.controls]
    · rw [he.feeds_iff, he.fedBy_iff, hm.feeds]
    · rw [calls_link hx, calledBy_link hg, hm.calls]

end Sdg
