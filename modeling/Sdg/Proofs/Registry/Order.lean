import Sdg.Proofs.Registry.Housing
import Sdg.Proofs.Registry.Mirror

/-!
# Order

`Orderly` gathers what is true of every registry, also in the middle of a build: both ends of edges
agree, every node has its place, every graph has its shape, only calls are linked and have actual
parameters, only globals are global parameters, functions are entered with their live graphs, no
graph is half torn down or unheld under a caller, and every data edge is there for a reason.

Main result:

* `Orderly.changes` — changes keep a registry orderly.
-/

namespace Sdg

namespace Registry

/-- What holds of a registry at any time while graphs are built. -/
structure Orderly (m : Module) (r : Registry) : Prop where
  mirrored : r.Mirrored
  housed : r.Housed
  shaped : r.Shaped m
  /-- Only an indexed call is linked. -/
  linked : ∀ c g, r.Calls c g → ∃ h args, r.IsCall m c h args
  /-- Only an indexed call has actual parameters. -/
  equipped : ∀ c s b n, r.occupant (.actual c s b) = some n → ∃ h args, r.IsCall m c h args
  /-- Only a global is a global parameter. -/
  sorted : ∀ g y v q, r.graph? g = some y → y.formals.at? (.global v) = some q →
    m.isGlobal v = .ok true
  standing : ∀ g y, r.graph? g = some y → y.phase ≠ .destroying
  /-- Under each function its live graph is entered. -/
  enrolled : r.Enrolled
  /-- A graph without references has no callers. -/
  held : ∀ g y, r.graph? g = some y → y.refcount = 0 → ∀ c, c ∉ y.callers
  /-- Data flows only where a parameter is bound. -/
  fed : ∀ a b, r.Feeds a b → r.Flow m a b

variable {m : Module} {r r' : Registry}

/-! ## What stays while the registry grows -/

theorem Feeds.grows (hg : r.Grows r') {a b : NodeId} (h : r.Feeds a b) : r'.Feeds a b := by
  obtain ⟨x, hx, hb⟩ := h
  obtain ⟨x', hx', hxx⟩ := hg.node a x hx
  exact ⟨x', hx', hxx.feeds b hb⟩

theorem Calls.grows (hg : r.Grows r') {c : NodeId} {g : GraphId} (h : r.Calls c g) :
    r'.Calls c g := by
  obtain ⟨x, hx, hc⟩ := h
  obtain ⟨x', hx', hxx⟩ := hg.node c x hx
  exact ⟨x', hx', hxx.callees g hc⟩

theorem OwnedBy.grows (hg : r.Grows r') {n : NodeId} {g : GraphId} (h : r.OwnedBy n g) :
    r'.OwnedBy n g := by
  obtain ⟨x, hx, ho⟩ := h
  obtain ⟨x', hx', hxx⟩ := hg.node n x hx
  exact ⟨x', hx', hxx.graph?.trans ho⟩

/-- A node belongs to one graph. -/
theorem OwnedBy.inj {c : NodeId} {g h : GraphId} (h1 : r.OwnedBy c g) (h2 : r.OwnedBy c h) :
    g = h := by
  obtain ⟨x, hx, hg⟩ := h1
  obtain ⟨x', hx', hh⟩ := h2
  rw [hx] at hx'
  cases hx'
  exact Option.some.inj (hg.symm.trans hh)

theorem Links.grows (hg : r.Grows r') {g h : GraphId} (hl : r.Links g h) : r'.Links g h := by
  obtain ⟨c, ho, hc⟩ := hl
  exact ⟨c, ho.grows hg, hc.grows hg⟩

theorem IsCall.grows (hg : r.Grows r') {c : NodeId} {g : GraphId} {args : List ValueId}
    (h : r.IsCall m c g args) : r'.IsCall m c g args := by
  obtain ⟨x, y, callee, hx, hxg, hy, hi, hop, hlisted⟩ := h
  obtain ⟨x', hx', hxx⟩ := hg.node c x hx
  obtain ⟨y', hy', hyy⟩ := hg.graph g y hy
  refine ⟨x', y', callee, hx', hxx.graph?.trans hxg, hy', ?_, ?_, hyy.callNodes c hlisted⟩
  · rw [hxx.key]
    exact hyy.index _ _ hi
  · rw [hxx.key]
    exact hop

theorem IsCall.ownedBy {c : NodeId} {g : GraphId} {args : List ValueId}
    (h : r.IsCall m c g args) : r.OwnedBy c g := by
  obtain ⟨x, _, _, hx, hxg, _⟩ := h
  exact ⟨x, hx, hxg⟩

end Registry

theorem Binding.grows {declared args : List ValueId} {y y' : Graph} (hg : y.Grows y')
    {v : ValueId} {q : ParameterPair} (h : Binding declared args y.formals v q) :
    Binding declared args y'.formals v q := by
  cases h with
  | declared hd ha hf => exact .declared hd ha (hg.find? _ _ hf)
  | heap hd ho => exact .heap hd (hg.at? (.own v) q ho)
  | global hv => exact .global (hg.at? (.global v) q hv)
  | variadic hi ha hv => exact .variadic hi ha (hg.at? .variadic q hv)

namespace Registry

variable {m : Module} {r r' : Registry}

theorem Binds.grows (hg : r.Grows r') {c : NodeId} {g : GraphId} {v : ValueId}
    {q : ParameterPair} (h : r.Binds m c g v q) : r'.Binds m c g v q := by
  obtain ⟨x, callee, args, y, f, hx, hc, hop, hy, hf, hb⟩ := h
  obtain ⟨x', hx', hxx⟩ := hg.node c x hx
  obtain ⟨y', hy', hyy⟩ := hg.graph g y hy
  refine ⟨x', callee, args, y', f, hx', hxx.callees g hc, ?_, hy', ?_, hb.grows hyy⟩
  · rw [hxx.key]
    exact hop
  · rw [hyy.function]
    exact hf

theorem actual?_grows (hg : r.Grows r') {c : NodeId} {v : ValueId} {q : ParameterPair}
    (h : r.actual? c v = some q) : r'.actual? c v = some q := by
  obtain ⟨x, hx, hq⟩ := Option.bind_eq_some_iff.1 h
  obtain ⟨x', hx', hxx⟩ := hg.node c x hx
  exact Option.bind_eq_some_iff.2 ⟨x', hx', hxx.find? v q hq⟩

theorem Flow.grows (hg : r.Grows r') {a b : NodeId} (h : r.Flow m a b) : r'.Flow m a b := by
  cases h with
  | variadic hy hq ha hb =>
    obtain ⟨y', hy', hyy⟩ := hg.graph _ _ hy
    exact .variadic hy' (hyy.at? .variadic _ hq) ha hb
  | passed hbind hact ha hb => exact .passed (hbind.grows hg) (actual?_grows hg hact) ha hb
  | returned hbind hact ha hb => exact .returned (hbind.grows hg) (actual?_grows hg hact) ha hb

end Registry

open Registry

/-! ## What a change does to graphs -/

/-- Spreading parameters changes of a graph its formals at most. -/
theorem Spread.graph {e : Setup} {r s : Registry} (h : Spread e r s) {g : GraphId} {y' : Graph}
    (hy' : s.graph? g = some y') :
    ∃ y, r.graph? g = some y ∧ y' = { y with formals := y'.formals } := by
  cases h with
  | @formal g' y key t hg _ _ _ =>
    rw [graph?_giveFormal] at hy'
    split at hy'
    · obtain ⟨y, hy, rfl⟩ := Option.map_eq_some_iff.1 hy'
      exact ⟨y, hy, rfl⟩
    · exact ⟨y', hy', rfl⟩
  | actual _ _ _ _ => exact ⟨y', by simpa using hy', rfl⟩
  | control _ _ => exact ⟨y', by simpa using hy', rfl⟩
  | feed _ _ _ => exact ⟨y', by simpa using hy', rfl⟩

/-- A new actual parameter is one of a call. -/
theorem Change.occupant_actual {e : Setup} {r s : Registry} (h : Change e r s) {c n : NodeId}
    {t : Slot} {b : Bool} (ho : s.occupant (.actual c t b) = some n) :
    r.occupant (.actual c t b) = some n ∨ ∃ g args, r.IsCall e.program c g args := by
  -- where all nodes keep their actual parameters, the place held the node before
  have hsame : (∀ n, (s.node? n).map (·.actuals) = (r.node? n).map (·.actuals)) →
      r.occupant (.actual c t b) = some n := by
    intro hn
    have := congrArg (Option.bind · fun f => (Parameters.at? f t).map (·.side b)) (hn c)
    simp only [Option.bind_map, Function.comp_def] at this
    exact this.symm.trans ho
  cases h with
  | spread h =>
    cases h with
    | formal hg hv _ _ =>
      -- the new places are those of a formal parameter
      rcases (occupant_giveFormal hg hv _ _).1 ho with ⟨_, hp, _⟩ | ho
      · cases hp
      · exact Or.inl ho
    | actual hc hx hv _ =>
      -- the new places are those of this call
      rcases (occupant_giveActual hx hv _ _).1 ho with ⟨_, hp, _⟩ | ho
      · cases hp
        exact Or.inr ⟨_, _, hc⟩
      · exact Or.inl ho
    | control _ _ =>
      refine Or.inl (hsame fun n => ?_)
      rw [node?_control]
      cases r.node? n <;> rfl
    | feed _ _ _ =>
      refine Or.inl (hsame fun n => ?_)
      rw [node?_feed]
      cases r.node? n <;> rfl
  | quiet h =>
    left
    cases h with
    | shared hv =>
      rcases (occupant_giveShared hv _ _).1 ho with ⟨hp, _⟩ | ho
      · cases hp
      · exact ho
    | graph _ => exact hsame fun _ => rfl
    | node hg hk =>
      rcases (occupant_giveNode hg hk _ _).1 ho with ⟨hp, _⟩ | ho
      · cases hp
      · exact ho
    | dress _ _ => exact hsame fun n => by simp
    | phase _ => exact hsame fun n => by simp
    | unseen hnode _ _ _ => exact hsame fun n => by rw [hnode]
    | recount _ => exact hsame fun n => by simp
  | @link c' g _ _ _ _ _ _ _ =>
    refine Or.inl (hsame fun n => ?_)
    rw [node?_link]
    split
    · cases r.node? n <;> rfl
    · rfl

/-- A call was linked before, or the link is new and the call may run what it goes to. -/
theorem Change.calls {e : Setup} {r s : Registry} (h : Change e r s) {c : NodeId} {k : GraphId}
    (hc : s.Calls c k) : r.Calls c k ∨ ∃ g, r.OwnedBy c g ∧ r.MayCall e c g k := by
  cases h with
  | spread h => exact Or.inl ((h.keepsLinks.calls c k).1 hc)
  | quiet h => exact Or.inl ((h.keepsLinks.calls c k).1 hc)
  | link hcall _ _ hmay =>
    obtain ⟨x, _, _, hx, _⟩ := id hcall
    -- the link is an old one or the new one
    rcases (calls_link hx c k).1 hc with hc | ⟨rfl, rfl⟩
    · exact Or.inl hc
    · exact Or.inr ⟨_, hcall.ownedBy, hmay⟩

/-- A link was there before, or it is new and there is a call that may run what it goes to. -/
theorem Change.links {e : Setup} {r s : Registry} (h : Change e r s) {g k : GraphId}
    (hl : s.Links g k) : r.Links g k ∨ r.MayLink e g k := by
  obtain ⟨c, ho, hc⟩ := hl
  rcases h.calls hc with hc | ⟨i, hi, hmay⟩
  · -- a call that was linked before belonged to the graph before
    obtain ⟨x, hx, hk⟩ := hc
    obtain ⟨x', hx', hxx⟩ := h.grows.node c x hx
    obtain ⟨z, hz, hg⟩ := ho
    rw [hx'] at hz
    cases hz
    exact Or.inl ⟨c, ⟨x, hx, hxx.graph?.symm.trans hg⟩, x, hx, hk⟩
  · have hig : i = g := OwnedBy.inj (hi.grows h.grows) ho
    subst hig
    exact Or.inr hmay.mayLink

/-- What a change may do to the graph `g`, which looks like `y`. -/
inductive Graph.Turn (e : Setup) (r : Registry) (g : GraphId) (y : Graph) : Graph → Prop where
  | core {z : Graph} : y.SameCore z → Turn e r g y z
  | formal {s : Slot} {q : ParameterPair} : y.formals.Vacant s → Reason e r g y s →
      Turn e r g y { y with formals := y.formals.put s q }
  | node {key : NodeKey} {n : NodeId} : y.index.get? key = none →
      Turn e r g y { y with index := y.index.insert key n }
  | phase {p : Phase} : p ≠ .destroying → Turn e r g y { y with phase := p }
  | recount {k : Nat} : (k = 0 → ∀ c, c ∉ y.callers) → Turn e r g y { y with refcount := k }
  | link {c : NodeId} {h : GraphId} {args : List ValueId} : r.IsCall e.program c h args →
      ¬ r.Calls c g →
      Turn e r g y { y with callers := y.callers.insert c, refcount := y.refcount + 1 }

/-- A graph after a change is a fresh one or took a turn. -/
theorem Change.graph {e : Setup} {r s : Registry} (h : Change e r s) {g : GraphId} {y' : Graph}
    (hy' : s.graph? g = some y') : (∃ f, g = r.nextGraph ∧ y' = .fresh f ∧ r.lookup? f = none) ∨
      ∃ y, r.graph? g = some y ∧ y.Turn e r g y' := by
  -- to stay as it is counts as a turn
  have hsame : r.graph? g = some y' → ∃ y, r.graph? g = some y ∧ y.Turn e r g y' :=
    fun hy => ⟨y', hy, .core (.refl y')⟩
  -- of all graphs a revision touches one
  have hrev : ∀ {k f}, s = r.reviseGraph k f → (∀ y, r.graph? k = some y → y.Turn e r k (f y)) →
      ∃ y, r.graph? g = some y ∧ y.Turn e r g y' := by
    intro k f hs hf
    rw [hs, graph?_reviseGraph] at hy'
    split at hy'
    · rename_i hk
      subst hk
      obtain ⟨y, hy, rfl⟩ := Option.map_eq_some_iff.1 hy'
      exact ⟨y, hy, hf y hy⟩
    · exact hsame hy'
  cases h with
  | spread h =>
    right
    cases h with
    | @formal k y key t hk hv hreason _ =>
      rw [graph?_giveFormal] at hy'
      split at hy'
      · rename_i hgk
        subst hgk
        rw [hk] at hy'
        cases hy'
        exact ⟨y, hk, .formal hv hreason⟩
      · exact hsame hy'
    | actual _ _ _ _ => exact hsame (by simpa using hy')
    | control _ _ => exact hsame (by simpa using hy')
    | feed _ _ _ => exact hsame (by simpa using hy')
  | quiet h =>
    cases h with
    | shared _ => exact Or.inr (hsame hy')
    | @graph f hf =>
      rw [graph?_pushGraph] at hy'
      split at hy'
      · rename_i hg
        subst hg
        cases hy'
        exact Or.inl ⟨f, rfl, rfl, hf⟩
      · exact Or.inr (hsame hy')
    | @node k y key block? hk hkey =>
      rw [graph?_giveNode] at hy'
      split at hy'
      · rename_i hgk
        subst hgk
        rw [hk] at hy'
        cases hy'
        exact Or.inr ⟨y, hk, .node hkey⟩
      · exact Or.inr (hsame hy')
    | dress hf _ => exact Or.inr (hrev rfl fun y _ => .core (hf y))
    | phase hp => exact Or.inr (hrev rfl fun _ _ => .phase hp)
    | unseen _ hgraph _ _ => exact Or.inr (hsame (by rwa [hgraph] at hy'))
    | recount hk => exact Or.inr (hrev rfl fun y hy => .recount (hk y hy))
  | link hc _ hn _ =>
    right
    rw [graph?_link] at hy'
    split at hy'
    · rename_i hgk
      subst hgk
      obtain ⟨y, hy, rfl⟩ := Option.map_eq_some_iff.1 hy'
      exact ⟨y, hy, .link hc hn⟩
    · exact hsame hy'

/-- A formal parameter was there before, or it is new and has its reason. -/
theorem Graph.Turn.at? {e : Setup} {r : Registry} {g : GraphId} {y z : Graph} (h : y.Turn e r g z)
    {s : Slot} {q : ParameterPair} (hq : z.formals.at? s = some q) :
    y.formals.at? s = some q ∨ Reason e r g y s := by
  cases h with
  | core hz => exact Or.inl (hz.formals ▸ hq)
  | formal hv hreason =>
    -- the new parameter is the one in the vacant slot
    rw [Parameters.at?_put hv] at hq
    split at hq
    · rename_i hs
      subst hs
      exact Or.inr hreason
    · exact Or.inl hq
  | node _ => exact Or.inl hq
  | phase _ => exact Or.inl hq
  | recount _ => exact Or.inl hq
  | link _ _ => exact Or.inl hq

/-- A global parameter is a global, also after a change. -/
theorem Graph.Turn.isGlobal {e : Setup} {r : Registry} {g : GraphId} {y z : Graph}
    (hr : r.Orderly e.program) (hy : r.graph? g = some y) (h : y.Turn e r g z) {v : ValueId}
    {q : ParameterPair} (hq : z.formals.at? (.global v) = some q) :
    e.program.isGlobal v = .ok true := by
  rcases h.at? hq with hq | hreason
  · exact hr.sorted g y v q hy hq
  · cases hreason with
    | touched ht => exact ht.isGlobal
    | handedGlobal _ hz hm =>
      -- it was a global parameter of a graph that is called
      obtain ⟨q', hq'⟩ := OrderedMap.mem_keys.1 hm
      exact hr.sorted _ _ v q' hz hq'

theorem Graph.Turn.standing {e : Setup} {r : Registry} {g : GraphId} {y z : Graph}
    (h : y.Turn e r g z) (hy : y.phase ≠ .destroying) : z.phase ≠ .destroying := by
  cases h with
  | core hz => rwa [hz.phase]
  | phase hp => exact hp
  | formal _ _ => exact hy
  | node _ => exact hy
  | recount _ => exact hy
  | link _ _ => exact hy

/-- If a graph has no references after a change, it has no callers. -/
theorem Graph.Turn.held {e : Setup} {r : Registry} {g : GraphId} {y z : Graph}
    (h : y.Turn e r g z) (hy : y.refcount = 0 → ∀ c, c ∉ y.callers) (hz : z.refcount = 0) :
    ∀ c, c ∉ z.callers := by
  cases h with
  | core hs =>
    rw [hs.callers]
    exact hy (hs.refcount ▸ hz)
  | formal _ _ => exact hy hz
  | node _ => exact hy hz
  | phase _ => exact hy hz
  | recount hk => exact hk hz
  | link _ _ => exact absurd hz (Nat.succ_ne_zero _)

/-! ## Changes keep the shape of graphs -/

theorem Registry.Shaped.giveNode {m : Module} {r : Registry} {g : GraphId} {y : Graph}
    {key : NodeKey} (h : r.Shaped m) (hy : r.graph? g = some y)
    (hk : y.index.get? key = none) (block? : Option BlockKey) :
    (r.giveNode g key block?).Shaped m := by
  have hpush : (r.pushNode (.fresh key (some g) block?)).Shaped m := h.of_graphs fun _ => rfl
  refine hpush.reviseGraph fun z hz hs => ?_
  rw [graph?_pushNode, hy] at hz
  cases hz
  exact hs.insert hk r.nextNode

/-- Parameters are none of the shape. -/
theorem Registry.Shaped.spread {m : Module} {e : Setup} {r s : Registry} (h : r.Shaped m)
    (hs : Spread e r s) : s.Shaped m := by
  intro g y' hy'
  obtain ⟨y, hy, he⟩ := hs.graph hy'
  rw [he]
  exact (h g y hy).of_eq rfl rfl rfl rfl rfl rfl

theorem Registry.Shaped.link {m : Module} {r : Registry} (h : r.Shaped m) (c : NodeId)
    (g : GraphId) : (r.link c g).Shaped m := by
  have hnode : (r.reviseNode c fun x => { x with callees := x.callees.insert g }).Shaped m :=
    h.of_graphs fun k => by simp
  exact hnode.reviseGraph fun _ _ hs => hs.of_eq rfl rfl rfl rfl rfl rfl

theorem Registry.Shaped.quiet {m : Module} {r s : Registry} (h : r.Shaped m) (hs : Quiet m r s) :
    s.Shaped m := by
  cases hs with
  | shared _ => exact h.of_graphs fun _ => rfl
  | graph _ => exact h.pushGraph _
  | node hg hk => exact h.giveNode hg hk _
  | dress _ hf => exact h.reviseGraph hf
  | phase _ => exact h.reviseGraph fun _ _ hy => hy.of_eq rfl rfl rfl rfl rfl rfl
  | unseen _ hgraph _ _ => exact h.of_graphs fun g => by rw [hgraph]
  | recount _ => exact h.reviseGraph fun _ _ hy => hy.of_eq rfl rfl rfl rfl rfl rfl

/-- **Shape.** A change keeps the shape of all graphs. -/
theorem Registry.Shaped.change {e : Setup} {r s : Registry} (h : r.Shaped e.program)
    (hs : Change e r s) : s.Shaped e.program := by
  cases hs with
  | spread hs => exact h.spread hs
  | quiet hs => exact h.quiet hs
  | link _ _ _ _ => exact h.link _ _

/-! ## Changes keep the roster -/

/-- Parameters are entered nowhere. -/
theorem Registry.Enrolled.spread {e : Setup} {r s : Registry} (h : r.Enrolled)
    (hs : Spread e r s) : s.Enrolled := by
  cases hs with
  | @formal g _ key _ _ _ _ _ =>
    have hpush : (r.pushPair g key).Enrolled := h.of_graphs rfl fun _ => rfl
    exact hpush.reviseGraph fun _ => rfl
  | actual _ _ _ _ =>
    exact h.of_graphs (lookup?_of_byFunction (byFunction_giveActual _ _ _ _ _)) fun g => by rw [graph?_giveActual]
  | control _ _ => exact h.of_graphs (lookup?_of_byFunction (byFunction_control _ _ _)) fun g => by rw [graph?_control]
  | feed _ _ _ => exact h.of_graphs (lookup?_of_byFunction (byFunction_feed _ _ _)) fun g => by rw [graph?_feed]

theorem Registry.Enrolled.quiet {m : Module} {r s : Registry} (h : r.Enrolled)
    (hs : Quiet m r s) : s.Enrolled := by
  cases hs with
  | shared _ => exact h.of_graphs rfl fun _ => rfl
  | graph hf => exact h.pushGraph hf
  | @node g _ key block? _ _ =>
    have hpush : (r.pushNode (.fresh key (some g) block?)).Enrolled := h.of_graphs rfl fun _ => rfl
    exact hpush.reviseGraph fun _ => rfl
  | dress hf _ => exact h.reviseGraph fun y => (hf y).function
  | phase _ => exact h.reviseGraph fun _ => rfl
  | unseen _ hgraph _ hf => exact h.of_graphs hf fun g => by rw [hgraph]
  | recount _ => exact h.reviseGraph fun _ => rfl

/-- **The roster.** Whatever changes, functions are entered with their live graphs. -/
theorem Registry.Enrolled.change {e : Setup} {r s : Registry} (h : r.Enrolled)
    (hs : Change e r s) : s.Enrolled := by
  cases hs with
  | spread hs => exact h.spread hs
  | quiet hs => exact h.quiet hs
  | @link c g _ _ _ _ _ _ _ =>
    have hnode : (r.reviseNode c fun x => { x with callees := x.callees.insert g }).Enrolled :=
      h.of_graphs (lookup?_of_byFunction (byFunction_reviseNode _ _ _)) fun g => by rw [graph?_reviseNode]
    exact hnode.reviseGraph fun _ => rfl

/-! ## Changes keep order -/

theorem Registry.Orderly.change {e : Setup} {r s : Registry} (hr : r.Orderly e.program)
    (h : Change e r s) : s.Orderly e.program where
  mirrored := hr.mirrored.change h
  housed := hr.housed.change h
  shaped := hr.shaped.change h
  linked c g hc := by
    have hold : r.Calls c g → ∃ k args, s.IsCall e.program c k args := by
      intro hc
      obtain ⟨k, args, hk⟩ := hr.linked c g hc
      exact ⟨k, args, hk.grows h.grows⟩
    cases h with
    | spread h => exact hold ((h.keepsLinks.calls c g).1 hc)
    | quiet h => exact hold ((h.keepsLinks.calls c g).1 hc)
    | @link _ _ k args _ hcall hg hn hmay =>
      have hcall' := hcall
      obtain ⟨x, _, _, hx, _⟩ := hcall'
      -- the link is an old one or the new one
      rcases (calls_link hx c g).1 hc with hc | ⟨rfl, rfl⟩
      · exact hold hc
      · exact ⟨k, args, hcall.grows (Change.link hcall hg hn hmay).grows⟩
  equipped c t b n ho := by
    -- a place at a call is an old one, or its call is one that was just given it
    rcases h.occupant_actual ho with ho | ⟨k, args, hk⟩
    · obtain ⟨k, args, hk⟩ := hr.equipped c t b n ho
      exact ⟨k, args, hk.grows h.grows⟩
    · exact ⟨k, args, hk.grows h.grows⟩
  sorted g y' v q hy' hq := by
    rcases h.graph hy' with ⟨f, _, rfl, _⟩ | ⟨y, hy, hturn⟩
    · simp [Graph.fresh] at hq
    · -- a graph that was there took a turn
      exact hturn.isGlobal hr hy hq
  standing g y' hy' := by
    rcases h.graph hy' with ⟨f, _, rfl, _⟩ | ⟨y, hy, hturn⟩
    · simp [Graph.fresh]
    · exact hturn.standing (hr.standing g y hy)
  enrolled := hr.enrolled.change h
  held g y' hy' h0 := by
    rcases h.graph hy' with ⟨f, _, rfl, _⟩ | ⟨y, hy, hturn⟩
    · exact fun c => OrderedSet.not_mem_empty c
    · exact hturn.held (hr.held g y hy) h0
  fed a b hab := by
    -- a data edge is an old one, or there is a reason for it
    rcases h.feeds hab with hab | hflow
    · exact (hr.fed a b hab).grows h.grows
    · exact hflow.grows h.grows

/-- **Order.** Changes keep a registry orderly. -/
theorem Registry.Orderly.changes {e : Setup} {r s : Registry} (hr : r.Orderly e.program)
    (h : Changes e r s) : s.Orderly e.program := by
  induction h with
  | refl => exact hr
  | tail _ hc ih => exact ih.change hc

@[simp] theorem Registry.occupant_empty (p : Place) : Registry.empty.occupant p = none := by
  cases p <;> rfl

/-- There is nothing in an empty registry that could be out of order. -/
theorem Registry.Orderly.empty (m : Module) : Registry.empty.Orderly m where
  mirrored := by
    constructor <;> intro _ _ <;> constructor <;> rintro ⟨_, h, _⟩ <;> cases h
  housed := ⟨by simp, by simp, fun _ _ h => nomatch h⟩
  shaped := .empty m
  linked _ _ := by
    intro hp
    obtain ⟨_, h, _⟩ := hp
    cases h
  equipped := by simp
  sorted _ _ _ _ h := nomatch h
  standing _ _ h := nomatch h
  enrolled := .empty
  held _ _ h := nomatch h
  fed _ _ := by
    intro hp
    obtain ⟨_, h, _⟩ := hp
    cases h

end Sdg
