import Sdg.Proofs.Registry.Change

/-!
# Every node has one place

`Housed` says that the places of a registry hold exactly its live nodes, each at one place only.
Nodes of parameters are not in the index of their graph, so nothing but the places tells that none
of them is lost or freed twice.

Main result:

* `Housed.change` — a change keeps every node in its place and finds one for each new node.
-/

namespace Sdg

namespace Registry

/-- Every live node is at exactly one place, and only live nodes are at places. -/
structure Housed (r : Registry) : Prop where
  inj : ∀ p q n, r.occupant p = some n → r.occupant q = some n → p = q
  live : ∀ p n, r.occupant p = some n → ∃ x, r.node? n = some x ∧ r.Fits x p
  full : ∀ n x, r.node? n = some x → ∃ p, r.occupant p = some n

variable {r r' : Registry}

/-! ## The ends of a new pair -/

theorem nextPair_side_eq (r : Registry) (b : Bool) :
    r.nextPair.side b = r.nextPair.input ∨ r.nextPair.side b = r.nextPair.output := by
  cases b
  · exact Or.inl rfl
  · exact Or.inr rfl

theorem nextPair_side_inj {b b' : Bool} (h : r.nextPair.side b = r.nextPair.side b') : b = b' := by
  have hne := r.nextPair_ne
  cases b <;> cases b' <;>
    simp only [ParameterPair.side, Bool.false_eq_true, if_false, if_true] at h
  · rfl
  · exact absurd h hne
  · exact absurd h.symm hne
  · rfl

theorem exists_side_of_nextPair {n : NodeId}
    (h : n = r.nextPair.input ∨ n = r.nextPair.output) : ∃ b, n = r.nextPair.side b := by
  rcases h with rfl | rfl
  · exact ⟨false, rfl⟩
  · exact ⟨true, rfl⟩

/-! ## Where nodes are added -/

/-- What a place asks of a node does not change while nodes keep their graphs. -/
theorem Fits.grows (hg : r.Grows r') {x : Node} {p : Place} (h : r.Fits x p) : r'.Fits x p := by
  cases p with
  | pool v => exact h
  | index g key => exact h
  | formal g s b => exact h
  | actual c s b =>
    obtain ⟨⟨z, hz, he⟩, hk⟩ := h
    obtain ⟨z', hz', hg'⟩ := hg.node c z hz
    exact ⟨⟨z', hz', hg'.graph?.trans he⟩, hk⟩

theorem Fits.of_tag {x x' : Node} {p : Place} (hk : x'.key = x.key) (hg : x'.graph? = x.graph?)
    (h : r.Fits x p) : r.Fits x' p := by
  cases p with
  | pool v => exact ⟨hk.trans h.1, hg.trans h.2⟩
  | index g key => exact ⟨hk.trans h.1, hg.trans h.2⟩
  | formal g s b => exact ⟨hg.trans h.1, fun v hv => hk.trans (h.2 v hv)⟩
  | actual c s b =>
    obtain ⟨⟨z, hz, he⟩, hv⟩ := h
    exact ⟨⟨z, hz, he.trans hg.symm⟩, fun v hs => hk.trans (hv v hs)⟩

/-- Housing where nodes are added: `new p n` says that the new node `n` goes to the place `p`. -/
theorem Housed.extend (h : r.Housed) (hg : r.Grows r') (new : Place → NodeId → Prop)
    (hocc : ∀ p n, r'.occupant p = some n ↔ new p n ∨ r.occupant p = some n)
    (hfresh : ∀ p n, new p n → r.node? n = none)
    (hinj : ∀ p q n, new p n → new q n → p = q)
    (hlive : ∀ p n, new p n → ∃ x, r'.node? n = some x ∧ r'.Fits x p)
    (hfull : ∀ n x, r'.node? n = some x → r.node? n = none → ∃ p, new p n) : r'.Housed where
  inj p q n hp hq := by
    -- an old place holds a live node, which no new place holds
    have hold : ∀ p q, new p n → r.occupant q ≠ some n := by
      intro p q hp hq
      obtain ⟨x, hx, _⟩ := h.live q n hq
      rw [hfresh p n hp] at hx
      cases hx
    -- two new places, a new and an old one, an old and a new one, two old ones
    rcases (hocc p n).1 hp with hp | hp <;> rcases (hocc q n).1 hq with hq | hq
    · exact hinj p q n hp hq
    · exact absurd hq (hold p q hp)
    · exact absurd hp (hold q p hq)
    · exact h.inj p q n hp hq
  live p n hp := by
    rcases (hocc p n).1 hp with hp | hp
    · exact hlive p n hp
    · obtain ⟨x, hx, hf⟩ := h.live p n hp
      obtain ⟨x', hx', hxg⟩ := hg.node n x hx
      exact ⟨x', hx', (hf.grows hg).of_tag hxg.key hxg.graph?⟩
  full n x hx := by
    -- a live node is new, or it was at its place before
    cases hn : r.node? n with
    | none =>
      obtain ⟨p, hp⟩ := hfull n x hx hn
      exact ⟨p, (hocc p n).2 (Or.inl hp)⟩
    | some y =>
      obtain ⟨p, hp⟩ := h.full n y hn
      exact ⟨p, (hocc p n).2 (Or.inr hp)⟩

/-- Housing where no node is added and all places hold what they held. -/
theorem Housed.of_occupant_eq (h : r.Housed) (hg : r.Grows r')
    (hocc : ∀ p, r'.occupant p = r.occupant p)
    (hn : ∀ n, r.node? n = none → r'.node? n = none) : r'.Housed := by
  refine h.extend hg (fun _ _ => False) (fun p n => by rw [hocc]; simp) (fun _ _ h => h.elim)
    (fun _ _ _ h => h.elim) (fun _ _ h => h.elim) (fun n x hx hnone => ?_)
  -- no node is new
  rw [hn n hnone] at hx
  cases hx

/-- Housing where one node is added and goes to the place `p`. -/
theorem Housed.extend_one (h : r.Housed) (hg : r.Grows r') {p : Place} {x : Node}
    (hocc : ∀ q n, r'.occupant q = some n ↔ (q = p ∧ n = r.nextNode) ∨ r.occupant q = some n)
    (hnode : ∀ n, r'.node? n = if n = r.nextNode then some x else r.node? n)
    (hfits : r'.Fits x p) : r'.Housed := by
  refine h.extend hg _ hocc ?_ ?_ ?_ ?_
  · intro q n hnew
    rw [hnew.2]
    exact node?_nextNode r
  · intro q q' n hnew hnew'
    rw [hnew.1, hnew'.1]
  · intro q n hnew
    rw [hnew.1, hnew.2, hnode, if_pos rfl]
    exact ⟨x, rfl, hfits⟩
  · intro n z hz hn
    rw [hnode, hn] at hz
    split at hz
    · rename_i hnext
      exact ⟨p, rfl, hnext⟩
    · cases hz

/-- Housing where a pair of nodes is added and its ends go to the places `p false` and `p true`. -/
theorem Housed.extend_pair (h : r.Housed) (hg : r.Grows r') {p : Bool → Place} {x : Node}
    (hocc : ∀ q n, r'.occupant q = some n ↔
      (∃ b, q = p b ∧ n = r.nextPair.side b) ∨ r.occupant q = some n)
    (hnew : ∀ b, r'.node? (r.nextPair.side b) = some x)
    (hold : ∀ n, r.node? n = none → r'.node? n ≠ none → ∃ b, n = r.nextPair.side b)
    (hfits : ∀ b, r'.Fits x (p b)) : r'.Housed := by
  refine h.extend hg _ hocc ?_ ?_ ?_ ?_
  · intro q n hq
    obtain ⟨b, _, rfl⟩ := hq
    exact node?_eq_none_of_nextPair (r.nextPair_side_eq b)
  · -- the two ends differ, so the node tells which of them it is
    intro q q' n hq hq'
    obtain ⟨b, rfl, hb⟩ := hq
    obtain ⟨b', rfl, hb'⟩ := hq'
    rw [nextPair_side_inj (hb.symm.trans hb')]
  · intro q n hq
    obtain ⟨b, rfl, rfl⟩ := hq
    exact ⟨x, hnew b, hfits b⟩
  · intro n z hz hn
    obtain ⟨b, hb⟩ := hold n hn (by rw [hz]; exact Option.some_ne_none z)
    exact ⟨p b, b, rfl, hb⟩

/-- The places of a registry whose nodes keep their actual parameters. -/
theorem occupant_eq (hp : r'.pool = r.pool)
    (hi : ∀ g, (r'.graph? g).map (·.index) = (r.graph? g).map (·.index))
    (hf : ∀ g, (r'.graph? g).map (·.formals) = (r.graph? g).map (·.formals))
    (ha : ∀ n, (r'.node? n).map (·.actuals) = (r.node? n).map (·.actuals)) (p : Place) :
    r'.occupant p = r.occupant p := by
  cases p with
  | pool v => simp [occupant, hp]
  | index g key =>
    have := congrArg (Option.bind · fun i => i.get? key) (hi g)
    simpa [occupant, Option.bind_map, Function.comp_def] using this
  | formal g s b =>
    have := congrArg (Option.bind · fun f => (Parameters.at? f s).map (·.side b)) (hf g)
    simpa [occupant, Option.bind_map, Function.comp_def] using this
  | actual c s b =>
    have := congrArg (Option.bind · fun f => (Parameters.at? f s).map (·.side b)) (ha c)
    simpa [occupant, Option.bind_map, Function.comp_def] using this

/-! ## Where new nodes go -/

/-- The actual parameters of a node are the same once nodes without any were added. -/
theorem bind_actuals_of_new {β : Type} {P : NodeId → Prop} [DecidablePred P] {x : Node}
    (hx : x.actuals? = none) (hP : ∀ n, P n → r.node? n = none)
    (h : ∀ n, r'.node? n = if P n then some x else r.node? n) (s : Slot)
    (f : ParameterPair → β) (c : NodeId) :
    ((r'.node? c).bind fun z => (z.actuals.at? s).map f) =
      (r.node? c).bind fun z => (z.actuals.at? s).map f := by
  rw [h c]
  by_cases hc : P c
  · -- a new node has no actual parameters, as it had none while it was not there
    rw [if_pos hc, hP c hc]
    simp [Node.actuals, hx]
  · rw [if_neg hc]

theorem occupant_giveFormal {g : GraphId} {y : Graph} {key : NodeKey} {s : Slot}
    (hg : r.graph? g = some y) (hv : y.formals.Vacant s) (p : Place) (n : NodeId) :
    (r.giveFormal g key s).occupant p = some n ↔
      (∃ b, p = .formal g s b ∧ n = r.nextPair.side b) ∨ r.occupant p = some n := by
  cases p with
  | pool v => simp [occupant, giveFormal, pushPair, pushNode]
  | index h k =>
    by_cases hh : h = g
    · subst hh; simp [occupant, hg]
    · simp [occupant, hh]
  | formal h t b =>
    by_cases hh : h = g
    · subst hh
      simp only [occupant, graph?_giveFormal, if_pos, hg, Option.map_some, Option.bind_some,
        Parameters.at?_put hv]
      by_cases ht : t = s
      · subst ht
        -- the slot was vacant, so nothing was at this place before
        simp [hv.at?_eq_none, eq_comm]
      · simp [ht]
    · simp [occupant, hh]
  | actual c t b =>
    have := bind_actuals_of_new (x := .fresh key (some g) none) rfl
      (fun n => node?_eq_none_of_nextPair) (node?_giveFormal r g key s) t (·.side b) c
    simp only [occupant]
    rw [this]
    simp

theorem occupant_giveActual {c : NodeId} {g : GraphId} {x : Node} {key : NodeKey} {s : Slot}
    (hx : r.node? c = some x) (hv : x.actuals.Vacant s) (p : Place) (n : NodeId) :
    (r.giveActual c g key s).occupant p = some n ↔
      (∃ b, p = .actual c s b ∧ n = r.nextPair.side b) ∨ r.occupant p = some n := by
  cases p with
  | pool v => simp [occupant, giveActual, pushPair, pushNode]
  | index h k => simp [occupant]
  | formal h t b => simp [occupant]
  | actual d t b =>
    simp only [occupant]
    rw [node?_giveActual hx]
    by_cases hd : d = r.nextPair.input ∨ d = r.nextPair.output
    · have hne : d ≠ c := by
        intro hs
        subst hs
        exact ne_nextPair hx hd
      rw [if_pos hd, node?_eq_none_of_nextPair hd]
      -- the new nodes are no calls yet
      simp [Node.actuals, Node.fresh, hne]
    · rw [if_neg hd]
      by_cases hc : d = c
      · subst hc
        rw [if_pos rfl, hx]
        simp only [Option.bind_some, Node.actuals, Option.getD_some]
        -- at the call itself the slot was vacant
        rw [show x.actuals?.getD .empty = x.actuals from rfl, Parameters.at?_put hv]
        by_cases ht : t = s
        · subst ht
          simp [hv.at?_eq_none, eq_comm]
        · simp [ht]
      · rw [if_neg hc]
        simp [hc]

theorem occupant_giveNode {g : GraphId} {y : Graph} {key : NodeKey} {block? : Option BlockKey}
    (hg : r.graph? g = some y) (hk : y.index.get? key = none) (p : Place) (n : NodeId) :
    (r.giveNode g key block?).occupant p = some n ↔
      (p = .index g key ∧ n = r.nextNode) ∨ r.occupant p = some n := by
  cases p with
  | pool v => simp [occupant, giveNode, pushNode]
  | index h k =>
    by_cases hh : h = g
    · subst hh
      simp only [occupant, graph?_giveNode, if_pos, hg, Option.map_some, Option.bind_some,
        OrderedMap.get?_insert]
      by_cases hkk : k = key
      · subst hkk
        simp [hk, eq_comm]
      · simp [hkk]
    · simp [occupant, hh]
  | formal h t b =>
    by_cases hh : h = g
    · subst hh; simp [occupant, hg]
    · simp [occupant, hh]
  | actual c t b =>
    -- a fresh node has no actual parameters
    have := bind_actuals_of_new (x := .fresh key (some g) block?)
      rfl (fun n hn => hn ▸ node?_nextNode r) (node?_giveNode r g key block?) t (·.side b) c
    simp only [occupant]
    rw [this]
    simp

theorem occupant_giveShared {v : ValueId} (hv : r.pool.get? v = none) (p : Place) (n : NodeId) :
    (r.giveShared v).occupant p = some n ↔
      (p = .pool v ∧ n = r.nextNode) ∨ r.occupant p = some n := by
  cases p with
  | pool w =>
    -- the global had no shared node
    show (r.pool.insert v r.nextNode).get? w = some n ↔ _
    rw [OrderedMap.get?_insert]
    by_cases hw : w = v
    · subst hw
      simp [occupant, hv, eq_comm]
    · simp [occupant, hw]
  | index h k => simp [occupant]
  | formal h t b => simp [occupant]
  | actual c t b =>
    have := bind_actuals_of_new (x := .fresh (.value v) none none) rfl
      (fun n hn => hn ▸ node?_nextNode r) (node?_giveShared r v) t (·.side b) c
    simp only [occupant]
    rw [this]
    simp

/-- A change of a graph that leaves its index and formals alone moves no node. -/
theorem occupant_reviseGraph {g : GraphId} {f : Graph → Graph}
    (hi : ∀ y, (f y).index = y.index) (hf : ∀ y, (f y).formals = y.formals) (p : Place) :
    (r.reviseGraph g f).occupant p = r.occupant p := by
  refine occupant_eq (pool_reviseGraph r g f) (fun h => ?_) (fun h => ?_) (fun n => by simp) p
  · by_cases hh : h = g
    · subst hh; cases hy : r.graph? h <;> simp [hy, hi]
    · simp [hh]
  · by_cases hh : h = g
    · subst hh; cases hy : r.graph? h <;> simp [hy, hf]
    · simp [hh]

/-! ## Every change keeps the housing -/

theorem Housed.reviseGraph (h : r.Housed) {g : GraphId} {f : Graph → Graph}
    (hg : r.Grows (r.reviseGraph g f)) (hi : ∀ y, (f y).index = y.index)
    (hf : ∀ y, (f y).formals = y.formals) : (r.reviseGraph g f).Housed :=
  h.of_occupant_eq hg (occupant_reviseGraph hi hf) fun n hn => by simpa using hn

end Registry

open Registry

theorem Registry.Housed.spread {e : Setup} {r s : Registry} (hh : r.Housed) (h : Spread e r s) :
    s.Housed := by
  have hgr := h.grows
  cases h with
  | @formal g y key t hg hv _ hkey =>
    refine hh.extend_pair hgr (x := .fresh key (some g) none) (occupant_giveFormal hg hv) ?_ ?_
      fun _ => ⟨rfl, hkey⟩
    · intro b
      rw [node?_giveFormal, if_pos (r.nextPair_side_eq b)]
    · intro n hn hlive
      rw [node?_giveFormal, hn] at hlive
      split at hlive
      · rename_i hp
        exact exists_side_of_nextPair hp
      · exact absurd rfl hlive
  | @actual c g x args key t hc hx hv hkey =>
    refine hh.extend_pair hgr (x := .fresh key (some g) none) (occupant_giveActual hx hv) ?_ ?_
      fun _ => ⟨?_, hkey⟩
    · intro b
      rw [node?_giveActual hx, if_pos (r.nextPair_side_eq b)]
    · intro n hn hlive
      by_cases hp : n = r.nextPair.input ∨ n = r.nextPair.output
      · exact exists_side_of_nextPair hp
      · -- the call itself was live before
        have hc : n ≠ c := by
          intro hs
          rw [hs, hx] at hn
          cases hn
        rw [node?_giveActual hx, if_neg hp, if_neg hc] at hlive
        exact absurd hn hlive
    · obtain ⟨x', _, _, hx', hxg, _⟩ := hc
      rw [hx] at hx'
      cases hx'
      refine ⟨{ x with actuals? := some (x.actuals.put t r.nextPair) }, ?_, hxg⟩
      rw [node?_giveActual hx, if_neg (ne_nextPair hx), if_pos rfl]
  | @control a b _ _ _ _ =>
    refine hh.of_occupant_eq hgr (occupant_eq (by simp [Registry.control]) (fun g => by simp)
      (fun g => by simp) fun n => ?_) fun n hn => by rw [node?_control, hn]; rfl
    -- an edge moves no node, and touches no actual parameters
    rw [node?_control]
    cases r.node? n <;> rfl
  | @feed a b _ _ _ _ _ =>
    refine hh.of_occupant_eq hgr (occupant_eq (by simp [Registry.feed]) (fun g => by simp)
      (fun g => by simp) fun n => ?_) fun n hn => by rw [node?_feed, hn]; rfl
    -- an edge moves no node, and touches no actual parameters
    rw [node?_feed]
    cases r.node? n <;> rfl

theorem Registry.Housed.quiet {m : Module} {r s : Registry} (hh : r.Housed) (h : Quiet m r s) :
    s.Housed := by
  have hgr := h.grows
  cases h with
  | @shared v hv =>
    exact hh.extend_one hgr (occupant_giveShared hv) (node?_giveShared r v) ⟨rfl, rfl⟩
  | graph _ =>
    -- a new graph has no places yet
    refine hh.of_occupant_eq hgr (fun p => ?_) fun n hn => hn
    cases p with
    | pool v => rfl
    | index g key =>
      by_cases hg : g = r.nextGraph
      · subst hg; simp [occupant, graph?_nextGraph, Graph.fresh]
      · simp [occupant, hg]
    | formal g t b =>
      by_cases hg : g = r.nextGraph
      · subst hg; simp [occupant, graph?_nextGraph, Graph.fresh]
      · simp [occupant, hg]
    | actual c t b => simp [occupant]
  | @node g y key block? hg hk =>
    exact hh.extend_one hgr (occupant_giveNode hg hk) (node?_giveNode r g key block?) ⟨rfl, rfl⟩
  | dress hf _ => exact hh.reviseGraph hgr (fun y => (hf y).index) fun y => (hf y).formals
  | phase _ => exact hh.reviseGraph hgr (fun _ => rfl) fun _ => rfl
  | unseen hnode hgraph hpool _ =>
    exact hh.of_occupant_eq hgr (occupant_eq hpool (fun g => by rw [hgraph])
      (fun g => by rw [hgraph]) fun n => by rw [hnode]) fun n hn => by rw [hnode, hn]
  | recount _ => exact hh.reviseGraph hgr (fun _ => rfl) fun _ => rfl

/-- **Housing.** A change leaves every node at its place and puts each new one at one. -/
theorem Registry.Housed.change {e : Setup} {r s : Registry} (hh : r.Housed) (h : Change e r s) :
    s.Housed := by
  have hgr := h.grows
  cases h with
  | spread h => exact hh.spread h
  | quiet h => exact hh.quiet h
  | @link c g _ _ _ _ _ _ _ =>
    -- a link moves no node: it touches the callees of a node and the callers of a graph
    refine hh.of_occupant_eq hgr (occupant_eq (by simp [Registry.link]) (fun h => ?_) (fun h => ?_)
      fun n => ?_) fun n hn => by simp [hn]
    · by_cases hg : h = g
      · subst hg; cases hy : r.graph? h <;> simp [hy]
      · simp [hg]
    · by_cases hg : h = g
      · subst hg; cases hy : r.graph? h <;> simp [hy]
      · simp [hg]
    · by_cases hn : n = c
      · subst hn; cases hx : r.node? n <;> simp [hx, Node.actuals]
      · simp [hn]

end Sdg
