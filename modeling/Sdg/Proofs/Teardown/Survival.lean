import Sdg.Proofs.Formals.Closure
import Sdg.Proofs.Teardown.Outcome

/-!
# What survives a teardown

What is left of an orderly registry is orderly again, and where all links were up to date they are
so among the graphs that are left. Both ends of what is left are left: an edge between two nodes
that stay, a link of a call that stays to a graph that stays.

Main results:

* `Remains.orderly` — order survives a teardown;
* `Remains.closed` — links that are left are up to date if all links were.
-/

namespace Sdg

open scoped Classical

namespace Registry

variable {m : Module} {r t : Registry} {D : Set GraphId} {a b c n : NodeId} {g h : GraphId}
  {x' : Node} {y' : Graph} {p : Place}

namespace Remains

/-! ## The view of what is left -/

theorem node?_iff (hrem : r.Remains D t) : t.node? n = some x' ↔
    n ∉ r.nodesOf D ∧ ∃ x, r.node? n = some x ∧ x' = x.without (r.nodesOf D) D := by
  by_cases hn : n ∈ r.nodesOf D
  · simp [hrem.freed n hn, hn]
  · rw [hrem.node n hn]
    simp [hn, eq_comm]

theorem graph?_iff (hrem : r.Remains D t) : t.graph? h = some y' ↔
    h ∉ D ∧ ∃ y, r.graph? h = some y ∧ y' = y.without (r.nodesOf D) (r.callsFrom D h).ncard := by
  by_cases hh : h ∈ D
  · simp [hrem.gone h hh, hh]
  · rw [hrem.graph h hh]
    simp [hh, eq_comm]

/-- An edge is left if both its ends are. -/
theorem edge_iff (hrem : r.Remains D t) {f : Node → OrderedSet NodeId}
    (hf : ∀ x : Node, f (x.without (r.nodesOf D) D) = (f x).filter fun k => k ∉ r.nodesOf D) :
    (∃ x, t.node? a = some x ∧ b ∈ f x) ↔
      a ∉ r.nodesOf D ∧ b ∉ r.nodesOf D ∧ ∃ x, r.node? a = some x ∧ b ∈ f x := by
  constructor
  · intro h
    obtain ⟨x', hx', hb⟩ := h
    obtain ⟨ha, x, hx, rfl⟩ := hrem.node?_iff.1 hx'
    rw [hf, OrderedSet.mem_filter] at hb
    exact ⟨ha, by simpa using hb.2, x, hx, hb.1⟩
  · intro h
    obtain ⟨ha, hb, x, hx, hbx⟩ := h
    refine ⟨_, hrem.node?_iff.2 ⟨ha, x, hx, rfl⟩, ?_⟩
    rw [hf, OrderedSet.mem_filter]
    exact ⟨hbx, by simpa using hb⟩

theorem feeds_iff (hrem : r.Remains D t) :
    t.Feeds a b ↔ a ∉ r.nodesOf D ∧ b ∉ r.nodesOf D ∧ r.Feeds a b :=
  hrem.edge_iff fun _ => rfl

theorem calls_iff (hrem : r.Remains D t) :
    t.Calls c h ↔ c ∉ r.nodesOf D ∧ h ∉ D ∧ r.Calls c h := by
  constructor
  · intro hp
    obtain ⟨x', hx', hh⟩ := hp
    obtain ⟨hc, x, hx, rfl⟩ := hrem.node?_iff.1 hx'
    obtain ⟨hh, hD⟩ := OrderedSet.mem_filter.1 hh
    exact ⟨hc, by simpa using hD, x, hx, hh⟩
  · intro hp
    obtain ⟨hc, hD, x, hx, hh⟩ := hp
    refine ⟨_, hrem.node?_iff.2 ⟨hc, x, hx, rfl⟩, ?_⟩
    exact OrderedSet.mem_filter.2 ⟨hh, by simpa using hD⟩

theorem calledBy_iff (hrem : r.Remains D t) :
    t.CalledBy h c ↔ h ∉ D ∧ c ∉ r.nodesOf D ∧ r.CalledBy h c := by
  constructor
  · intro hp
    obtain ⟨y', hy', hc⟩ := hp
    obtain ⟨hh, y, hy, rfl⟩ := hrem.graph?_iff.1 hy'
    obtain ⟨hc, hN⟩ := OrderedSet.mem_filter.1 hc
    exact ⟨hh, by simpa using hN, y, hy, hc⟩
  · intro hp
    obtain ⟨hh, hN, y, hy, hc⟩ := hp
    refine ⟨_, hrem.graph?_iff.2 ⟨hh, y, hy, rfl⟩, ?_⟩
    exact OrderedSet.mem_filter.2 ⟨hc, by simpa using hN⟩

theorem ownedBy_iff (hrem : r.Remains D t) :
    t.OwnedBy n h ↔ n ∉ r.nodesOf D ∧ r.OwnedBy n h := by
  constructor
  · intro hp
    obtain ⟨x', hx', hg⟩ := hp
    obtain ⟨hn, x, hx, rfl⟩ := hrem.node?_iff.1 hx'
    exact ⟨hn, x, hx, hg⟩
  · intro hp
    obtain ⟨hn, x, hx, hg⟩ := hp
    exact ⟨_, hrem.node?_iff.2 ⟨hn, x, hx, rfl⟩, hg⟩

/-! ## Places -/

/-- The nodes of a graph that is left are left. -/
theorem not_mem_nodesOf (hr : r.Orderly m) (ho : r.OwnedBy n h) (hh : h ∉ D) :
    n ∉ r.nodesOf D := by
  intro hn
  obtain ⟨k, hk, hok⟩ := (hr.mem_nodesOf_iff D).1 hn
  -- a node has one owner
  have heq : h = k := OwnedBy.inj ho hok
  exact hh (heq ▸ hk)

theorem mem_nodesOf (hr : r.Orderly m) (ho : r.OwnedBy n h) (hh : h ∈ D) : n ∈ r.nodesOf D :=
  (hr.mem_nodesOf_iff D).2 ⟨h, hh, ho⟩

/-- A call goes with its actual parameters. -/
theorem actual_mem_nodesOf_iff (hr : r.Orderly m) {s : Slot} {isOutput : Bool}
    (hocc : r.occupant (.actual c s isOutput) = some n) :
    n ∈ r.nodesOf D ↔ c ∈ r.nodesOf D := by
  obtain ⟨x, hx, ⟨z, hz, hzg⟩, _⟩ := hr.housed.live _ n hocc
  -- the call and its parameter have the same owner
  have hown : ∀ k, r.OwnedBy n k ↔ r.OwnedBy c k := by
    intro k
    simp only [OwnedBy, hx, hz, Option.some.injEq, exists_eq_left', hzg]
  simp only [hr.mem_nodesOf_iff, hown]

/-- A shared node belongs to no graph. -/
theorem pooled_not_mem_nodesOf (hr : r.Orderly m) {v : ValueId}
    (hocc : r.occupant (.pool v) = some n) : n ∉ r.nodesOf D := by
  intro hn
  obtain ⟨x, hx, _, hnone⟩ := hr.housed.live _ n hocc
  obtain ⟨k, _, z, hz, hk⟩ := (hr.mem_nodesOf_iff D).1 hn
  rw [hx] at hz
  cases hz
  rw [hnone] at hk
  cases hk

/-- A node of a graph is left with the graph, if it is seen through a part `f` that stays as it
was. -/
theorem bind_graph?_iff (hr : r.Orderly m) (hrem : r.Remains D t) {f : Graph → Option NodeId}
    (hf : ∀ y : Graph, f (y.without (r.nodesOf D) (r.callsFrom D h).ncard) = f y)
    (hown : (r.graph? h).bind f = some n → r.OwnedBy n h) :
    (t.graph? h).bind f = some n ↔ n ∉ r.nodesOf D ∧ (r.graph? h).bind f = some n := by
  by_cases hh : h ∈ D
  · rw [hrem.gone h hh]
    constructor
    · intro hp
      cases hp
    · intro hp
      obtain ⟨hn, hocc⟩ := hp
      exact absurd (mem_nodesOf hr (hown hocc) hh) hn
  · have hsame : f ∘ (·.without (r.nodesOf D) (r.callsFrom D h).ncard) = f := funext hf
    rw [hrem.graph h hh, Option.bind_map, hsame]
    exact (and_iff_right_of_imp fun hocc => not_mem_nodesOf hr (hown hocc) hh).symm

/-- An actual parameter is left with its call. -/
theorem occupant_actual_iff (hr : r.Orderly m) (hrem : r.Remains D t) {s : Slot}
    {isOutput : Bool} : t.occupant (.actual c s isOutput) = some n ↔
      n ∉ r.nodesOf D ∧ r.occupant (.actual c s isOutput) = some n := by
  by_cases hc : c ∈ r.nodesOf D
  · -- the call is gone, and its parameters with it
    have hnone : t.occupant (.actual c s isOutput) = none := by
      rw [occupant, hrem.freed c hc]
      rfl
    rw [hnone]
    constructor
    · intro hp
      cases hp
    · intro hp
      obtain ⟨hn, hocc⟩ := hp
      exact absurd ((actual_mem_nodesOf_iff hr hocc).2 hc) hn
  · -- the call is left with all its parameters
    have hsame : t.occupant (.actual c s isOutput) = r.occupant (.actual c s isOutput) := by
      rw [occupant, occupant, hrem.node c hc, Option.bind_map]
      rfl
    rw [hsame]
    refine (and_iff_right_of_imp fun hocc hn => ?_).symm
    exact hc ((actual_mem_nodesOf_iff hr hocc).1 hn)

/-- A place is left with its node. -/
theorem occupant_iff (hr : r.Orderly m) (hrem : r.Remains D t) :
    t.occupant p = some n ↔ n ∉ r.nodesOf D ∧ r.occupant p = some n := by
  cases p with
  | pool v =>
    have hpool : t.occupant (.pool v) = r.occupant (.pool v) := by
      rw [occupant, occupant, hrem.pool]
    rw [hpool]
    exact (and_iff_right_of_imp fun hocc => pooled_not_mem_nodesOf hr hocc).symm
  | index g key =>
    refine bind_graph?_iff hr hrem (fun _ => rfl) fun hocc => ?_
    obtain ⟨x, hx, _, hxg⟩ := hr.housed.live (.index g key) n hocc
    exact ⟨x, hx, hxg⟩
  | formal g s b =>
    refine bind_graph?_iff hr hrem (fun _ => rfl) fun hocc => ?_
    obtain ⟨x, hx, hxg, _⟩ := hr.housed.live (.formal g s b) n hocc
    exact ⟨x, hx, hxg⟩
  | actual c s b => exact occupant_actual_iff hr hrem

theorem housed (hr : r.Orderly m) (hrem : r.Remains D t) : t.Housed where
  inj p q n hp hq := hr.housed.inj p q n ((hrem.occupant_iff hr).1 hp).2
    ((hrem.occupant_iff hr).1 hq).2
  live p n hp := by
    obtain ⟨hn, hocc⟩ := (hrem.occupant_iff hr).1 hp
    obtain ⟨x, hx, hfits⟩ := hr.housed.live p n hocc
    refine ⟨_, hrem.node?_iff.2 ⟨hn, x, hx, rfl⟩, ?_⟩
    cases p with
    | pool v => exact hfits
    | index g key => exact hfits
    | formal g s b => exact hfits
    | actual c s b =>
      obtain ⟨⟨z, hz, hzg⟩, hkey⟩ := hfits
      -- a parameter that is left has its call still
      have hc : c ∉ r.nodesOf D := fun hc => hn ((actual_mem_nodesOf_iff hr hocc).2 hc)
      exact ⟨⟨_, hrem.node?_iff.2 ⟨hc, z, hz, rfl⟩, hzg⟩, hkey⟩
  full n x' hx' := by
    obtain ⟨hn, x, hx, _⟩ := hrem.node?_iff.1 hx'
    obtain ⟨p, hp⟩ := hr.housed.full n x hx
    exact ⟨p, (hrem.occupant_iff hr).2 ⟨hn, hp⟩⟩

theorem mirrored (hr : r.Orderly m) (hrem : r.Remains D t) : t.Mirrored where
  controls a b := by
    have h1 : t.Controls a b ↔ a ∉ r.nodesOf D ∧ b ∉ r.nodesOf D ∧ r.Controls a b :=
      hrem.edge_iff fun _ => rfl
    have h2 : t.ControlledBy b a ↔ b ∉ r.nodesOf D ∧ a ∉ r.nodesOf D ∧ r.ControlledBy b a :=
      hrem.edge_iff fun _ => rfl
    rw [h1, h2, hr.mirrored.controls a b]
    tauto
  feeds a b := by
    have h2 : t.FedBy b a ↔ b ∉ r.nodesOf D ∧ a ∉ r.nodesOf D ∧ r.FedBy b a :=
      hrem.edge_iff fun _ => rfl
    rw [hrem.feeds_iff, h2, hr.mirrored.feeds a b]
    tauto
  calls c h := by
    rw [hrem.calls_iff, hrem.calledBy_iff, hr.mirrored.calls c h]
    tauto

/-- A call that is left is a call. -/
theorem isCall (hrem : r.Remains D t) (hr : r.Orderly m) {args : List ValueId}
    (hcall : r.IsCall m c h args) (hc : c ∉ r.nodesOf D) : t.IsCall m c h args := by
  have hh : h ∉ D := fun hh => hc (mem_nodesOf hr hcall.ownedBy hh)
  obtain ⟨x, y, callee, hx, hxg, hy, hi, hop, hlisted⟩ := hcall
  exact ⟨_, _, callee, hrem.node?_iff.2 ⟨hc, x, hx, rfl⟩, hxg,
    hrem.graph?_iff.2 ⟨hh, y, hy, rfl⟩, hi, hop, hlisted⟩

/-- Without references that are left over for it, a graph would have gone. -/
theorem held (hr : r.Orderly m) (hD : r.Falls g D) (hrem : r.Remains D t)
    (hy' : t.graph? h = some y') (h0 : y'.refcount = 0) : ∀ c, c ∉ y'.callers := by
  obtain ⟨hh, y, hy, rfl⟩ := hrem.graph?_iff.1 hy'
  have hcount := hrem.counted h hh y hy
  have hsub : y.refcount - (r.callsFrom D h).ncard = 0 := h0
  have hzero : y.refcount = 0 := by
    -- what it had is what the graphs that are gone held, so it falls as well
    by_contra hpos
    exact hh (hD.step h y hy (by omega) (by omega))
  intro c hc
  exact hr.held h y hy hzero c (OrderedSet.mem_filter.1 hc).1

/-! ## Bindings and flows -/

theorem binds_iff (hrem : r.Remains D t) {v : ValueId} {q : ParameterPair} :
    t.Binds m c h v q ↔ c ∉ r.nodesOf D ∧ h ∉ D ∧ r.Binds m c h v q := by
  constructor
  · intro hp
    obtain ⟨x', callee, args, y', f, hx', hh, hop, hy', hf, hb⟩ := hp
    obtain ⟨hc, x, hx, rfl⟩ := hrem.node?_iff.1 hx'
    obtain ⟨hD, y, hy, rfl⟩ := hrem.graph?_iff.1 hy'
    exact ⟨hc, hD, x, callee, args, y, f, hx, (OrderedSet.mem_filter.1 hh).1, hop, hy, hf, hb⟩
  · intro hp
    obtain ⟨hc, hD, x, callee, args, y, f, hx, hh, hop, hy, hf, hb⟩ := hp
    exact ⟨_, callee, args, _, f, hrem.node?_iff.2 ⟨hc, x, hx, rfl⟩,
      OrderedSet.mem_filter.2 ⟨hh, by simpa using hD⟩, hop, hrem.graph?_iff.2 ⟨hD, y, hy, rfl⟩,
      hf, hb⟩

theorem actual?_eq (hrem : r.Remains D t) (hc : c ∉ r.nodesOf D) (v : ValueId) :
    t.actual? c v = r.actual? c v := by
  rw [actual?, actual?, hrem.node c hc, Option.bind_map]
  rfl

end Remains

/-- A formal parameter that takes a value is at a place of its graph. -/
theorem Binds.occupant {v : ValueId} {q : ParameterPair} (h : r.Binds m c g v q) :
    ∃ s, ∀ isOutput, r.occupant (.formal g s isOutput) = some (q.side isOutput) := by
  obtain ⟨x, callee, args, y, f, _, _, _, hy, _, hb⟩ := h
  have hslot : ∃ s, y.formals.at? s = some q := by
    cases hb with
    | @declared i w _ _ _ _ hf =>
      rw [Parameters.find?_eq, Option.or_eq_some_iff] at hf
      rcases hf with hf | ⟨_, hf⟩
      · exact ⟨.own w, hf⟩
      · exact ⟨.global w, hf⟩
    | heap _ ho => exact ⟨.own v, ho⟩
    | global hv => exact ⟨.global v, hv⟩
    | variadic _ _ hv => exact ⟨.variadic, hv⟩
  obtain ⟨s, hs⟩ := hslot
  refine ⟨s, fun isOutput => ?_⟩
  rw [Registry.occupant, hy, Option.bind_some, hs, Option.map_some]

theorem occupant_of_actual? {v : ValueId} {q : ParameterPair} (h : r.actual? c v = some q) :
    ∃ s, ∀ isOutput, r.occupant (.actual c s isOutput) = some (q.side isOutput) := by
  obtain ⟨x, hx, hf⟩ := Option.bind_eq_some_iff.1 h
  have hslot : ∃ s, x.actuals.at? s = some q := by
    rw [Parameters.find?_eq, Option.or_eq_some_iff] at hf
    rcases hf with hf | ⟨_, hf⟩
    · exact ⟨.own v, hf⟩
    · exact ⟨.global v, hf⟩
  obtain ⟨s, hs⟩ := hslot
  refine ⟨s, fun isOutput => ?_⟩
  rw [occupant, hx, Option.bind_some, hs, Option.map_some]

namespace Remains

/-- The graph of a formal parameter that is left is left. -/
theorem not_mem_of_formal (hr : r.Orderly m) {s : Slot} {isOutput : Bool}
    (hocc : r.occupant (.formal g s isOutput) = some n) (hn : n ∉ r.nodesOf D) : g ∉ D := by
  intro hg
  obtain ⟨x, hx, hxg, _⟩ := hr.housed.live _ n hocc
  exact hn (mem_nodesOf hr ⟨x, hx, hxg⟩ hg)

/-- What flows through a call and a formal parameter that are left still does. -/
theorem binds_of_left (hr : r.Orderly m) (hrem : r.Remains D t) {v : ValueId}
    {formal actual : ParameterPair} (isOutput : Bool) (hbind : r.Binds m c g v formal)
    (hact : r.actual? c v = some actual) (hf : formal.side isOutput ∉ r.nodesOf D)
    (ha : actual.side isOutput ∉ r.nodesOf D) :
    t.Binds m c g v formal ∧ t.actual? c v = some actual := by
  obtain ⟨s, hs⟩ := hbind.occupant
  obtain ⟨s', hs'⟩ := occupant_of_actual? hact
  have hg : g ∉ D := not_mem_of_formal hr (hs isOutput) hf
  have hc : c ∉ r.nodesOf D := fun hc => ha ((actual_mem_nodesOf_iff hr (hs' isOutput)).2 hc)
  refine ⟨hrem.binds_iff.2 ⟨hc, hg, hbind⟩, ?_⟩
  rw [hrem.actual?_eq hc]
  exact hact

theorem flow (hr : r.Orderly m) (hrem : r.Remains D t) (ha : a ∉ r.nodesOf D)
    (hb : b ∉ r.nodesOf D) (h : r.Flow m a b) : t.Flow m a b := by
  cases h with
  | @variadic g y q hy hq hqa hqb =>
    have hocc : r.occupant (.formal g .variadic false) = some a := by
      rw [occupant, hy, hqa]
      show (y.formals.variadic?).map (·.side false) = some q.input
      rw [hq]
      rfl
    have hg : g ∉ D := not_mem_of_formal hr hocc ha
    exact .variadic (hrem.graph?_iff.2 ⟨hg, y, hy, rfl⟩) hq hqa hqb
  | passed hbind hact hqa hqb =>
    subst hqa hqb
    -- into the formal parameter
    obtain ⟨hbind', hact'⟩ := hrem.binds_of_left hr false hbind hact hb ha
    exact .passed hbind' hact' rfl rfl
  | returned hbind hact hqa hqb =>
    subst hqa hqb
    -- out of the formal parameter
    obtain ⟨hbind', hact'⟩ := hrem.binds_of_left hr true hbind hact ha hb
    exact .returned hbind' hact' rfl rfl

/-- Functions whose graphs are left are found, and no others. -/
theorem enrolled (hr : r.Orderly m) (hrem : r.Remains D t) : t.Enrolled := by
  intro f h
  rw [hrem.lookup?, hr.enrolled]
  constructor
  · intro hp
    obtain ⟨⟨y, hy, rfl⟩, hh⟩ := hp
    exact ⟨_, hrem.graph?_iff.2 ⟨hh, y, hy, rfl⟩, rfl⟩
  · intro hp
    obtain ⟨y', hy', rfl⟩ := hp
    obtain ⟨hh, y, hy, rfl⟩ := hrem.graph?_iff.1 hy'
    exact ⟨⟨y, hy, rfl⟩, hh⟩

/-- **Order survives.** What a teardown leaves is orderly. -/
theorem orderly (hr : r.Orderly m) (hD : r.Falls g D) (hrem : r.Remains D t) : t.Orderly m where
  mirrored := hrem.mirrored hr
  housed := hrem.housed hr
  shaped h y' hy' := by
    obtain ⟨_, y, hy, rfl⟩ := hrem.graph?_iff.1 hy'
    exact (hr.shaped h y hy).of_eq rfl rfl rfl rfl rfl rfl
  linked c h hc := by
    obtain ⟨hcN, _, hcalls⟩ := hrem.calls_iff.1 hc
    obtain ⟨k, args, hcall⟩ := hr.linked c h hcalls
    exact ⟨k, args, hrem.isCall hr hcall hcN⟩
  equipped c s b n ho := by
    obtain ⟨hn, hocc⟩ := (hrem.occupant_iff hr).1 ho
    obtain ⟨k, args, hcall⟩ := hr.equipped c s b n hocc
    -- an actual parameter goes with its call
    have hc : c ∉ r.nodesOf D := fun hc => hn ((actual_mem_nodesOf_iff hr hocc).2 hc)
    exact ⟨k, args, hrem.isCall hr hcall hc⟩
  sorted h y' v q hy' hq := by
    obtain ⟨_, y, hy, rfl⟩ := hrem.graph?_iff.1 hy'
    exact hr.sorted h y v q hy hq
  standing h y' hy' := by
    obtain ⟨_, y, hy, rfl⟩ := hrem.graph?_iff.1 hy'
    exact hr.standing h y hy
  enrolled := hrem.enrolled hr
  held h y' hy' h0 := hrem.held hr hD hy' h0
  fed a b hab := by
    obtain ⟨ha, hb, hfeeds⟩ := hrem.feeds_iff.1 hab
    exact hrem.flow hr ha hb (hr.fed a b hfeeds)

/-- What comes in variadically at a graph that is left also goes out still. -/
theorem loops (hr : r.Orderly m) (hrem : r.Remains D t) (hl : ∀ g, r.Loops g) (g : GraphId) :
    t.Loops g := by
  intro q hq
  obtain ⟨formals, hformals, hv⟩ := Option.bind_eq_some_iff.1 hq
  obtain ⟨y', hy', hf⟩ := Option.map_eq_some_iff.1 hformals
  obtain ⟨hg, y, hy, rfl⟩ := hrem.graph?_iff.1 hy'
  have hvar : y.formals.variadic? = some q := hf ▸ hv
  -- both ends belong to the graph, which is left
  have hends : ∀ isOutput, q.side isOutput ∉ r.nodesOf D := by
    intro isOutput
    have hocc : r.occupant (.formal g .variadic isOutput) = some (q.side isOutput) := by
      rw [occupant, hy, Option.bind_some, Parameters.at?, hvar, Option.map_some]
    obtain ⟨x, hx, hxg, _⟩ := hr.housed.live _ _ hocc
    exact not_mem_nodesOf hr ⟨x, hx, hxg⟩ hg
  have hfeeds : r.Feeds q.input q.output := by
    refine hl g q ?_
    rw [variadic?, formals?, hy, Option.map_some, Option.bind_some, hvar]
  exact hrem.feeds_iff.2 ⟨hends false, hends true, hfeeds⟩

/-! ## Links -/

theorem settled (hr : r.Orderly m) (hrem : r.Remains D t) (hc : c ∉ r.nodesOf D) (hh : h ∉ D)
    (hs : r.Settled m c h) : t.Settled m c h where
  bound v formal hb := by
    obtain ⟨_, _, hbind⟩ := hrem.binds_iff.1 hb
    obtain ⟨actual, hact, h1, h2⟩ := hs.bound v formal hbind
    refine ⟨actual, by rw [hrem.actual?_eq hc, hact], ?_⟩
    -- both ends of both edges are left with the call and the graph
    obtain ⟨s, hslot⟩ := hbind.occupant
    obtain ⟨s', hslot'⟩ := occupant_of_actual? hact
    have hformal : ∀ isOutput, formal.side isOutput ∉ r.nodesOf D := by
      intro isOutput
      obtain ⟨x, hx, hxg, _⟩ := hr.housed.live _ _ (hslot isOutput)
      exact not_mem_nodesOf hr ⟨x, hx, hxg⟩ hh
    have hactual : ∀ isOutput, actual.side isOutput ∉ r.nodesOf D :=
      fun isOutput hn => hc ((actual_mem_nodesOf_iff hr (hslot' isOutput)).1 hn)
    exact ⟨hrem.feeds_iff.2 ⟨hactual false, hformal false, h1⟩,
      hrem.feeds_iff.2 ⟨hformal true, hactual true, h2⟩⟩
  absorbed k ho y' z' v hy' hz' hv := by
    obtain ⟨_, hok⟩ := hrem.ownedBy_iff.1 ho
    obtain ⟨_, y, hy, rfl⟩ := hrem.graph?_iff.1 hy'
    obtain ⟨_, z, hz, rfl⟩ := hrem.graph?_iff.1 hz'
    exact hs.absorbed k hok y z v hy hz hv

/-- Links that are left are up to date if all links were. -/
theorem closed (hr : r.Orderly m) (hc : r.Closed m) (hrem : r.Remains D t) : t.Closed m := by
  intro h c hcalls
  obtain ⟨hcN, hh, hcalls⟩ := hrem.calls_iff.1 hcalls
  exact hrem.settled hr hcN hh (hc h c hcalls)

end Remains

end Registry

end Sdg
