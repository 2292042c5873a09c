import Sdg.Proofs.Registry.Inventory
import Sdg.Proofs.Session.Steady

/-!
# The integrity of a session

What may be relied on after any run, whatever was built and torn down before it: every node is where
it belongs and nowhere else, every name that a node or a graph keeps is that of a live one, and what
is kept at both ends is the same at both. The one exception is the list of gathered calls, which
outlives the calls.

Main results:

* `Session.Reachable.one_place` — every live node has one place, and all places together tell how
  many nodes there are;
* `Session.Reachable.no_dangling` — edges are kept at both ends, and a graph names live nodes only.
-/

namespace Sdg

open Registry

/-! ## Who keeps a node -/

/-- The graph that keeps the nodes at a place. A shared node is kept by none. -/
def Registry.keeper? (r : Registry) : Place → Option GraphId
  | .pool _ => none
  | .index g _ => some g
  | .formal g _ _ => some g
  | .actual c _ _ => (r.node? c).bind (·.graph?)

theorem Registry.Fits.graph?_eq {r : Registry} {x : Node} {p : Place} (h : r.Fits x p) :
    x.graph? = r.keeper? p := by
  cases p with
  | pool v => exact h.2
  | index g key => exact h.2
  | formal g s b => exact h.1
  | actual c s b =>
    obtain ⟨⟨z, hz, hzg⟩, _⟩ := h
    rw [keeper?, hz]
    exact hzg.symm

/-- Only a live graph keeps nodes. -/
theorem Registry.Orderly.live_of_keeper {m : Module} {r : Registry} {p : Place} {n : NodeId}
    {g : GraphId} (hr : r.Orderly m) (hp : r.occupant p = some n) (hg : r.keeper? p = some g) :
    ∃ y, r.graph? g = some y := by
  cases p with
  | pool v => cases hg
  | index k key =>
    cases hg
    obtain ⟨y, hy, _⟩ := Option.bind_eq_some_iff.1 hp
    exact ⟨y, hy⟩
  | formal k s b =>
    cases hg
    obtain ⟨y, hy, _⟩ := Option.bind_eq_some_iff.1 hp
    exact ⟨y, hy⟩
  | actual c s b =>
    -- the graph of a call is the one in which it is indexed
    obtain ⟨k, args, x, y, _, hx, hxg, hy, _⟩ := hr.equipped c s b n hp
    rw [keeper?, hx, Option.bind_some, hxg] at hg
    cases hg
    exact ⟨y, hy⟩

/-! ## What a graph names -/

/-- The nodes that a graph names. -/
inductive Graph.Mentions (y : Graph) (n : NodeId) : Prop where
  | entry : y.entryNode? = some n → Mentions y n
  | exit : y.exitNode? = some n → Mentions y n
  | index : n ∈ y.index.values → Mentions y n
  | formal : n ∈ y.formals.nodes → Mentions y n
  | unit {b : BlockKey} {u : BlockUnit} : y.unit? b = some u → n ∈ u.nodes → Mentions y n
  | site {b : BlockKey} {u : BlockUnit} : y.unit? b = some u → n ∈ u.callSites → Mentions y n
  | call : n ∈ y.callNodes → Mentions y n
  | caller : n ∈ y.callers → Mentions y n

variable {m : Module} {r : Registry} {g : GraphId} {y : Graph} {n : NodeId}

/-- But for its parameters and its callers, a graph names what is in its index. -/
theorem Graph.Shaped.holds_of_mentions (hs : y.Shaped m) (hn : y.Mentions n) :
    y.Holds n ∨ n ∈ y.formals.nodes ∨ n ∈ y.callers := by
  have hcall : n ∈ y.callNodes → y.Holds n := by
    intro hc
    obtain ⟨v, _, _, hv, _⟩ := hs.calls n hc
    exact ⟨.value v, hv⟩
  cases hn with
  | entry h => exact Or.inl (hs.entry n h)
  | exit h => exact Or.inl (hs.exit n h)
  | index h => exact Or.inl (OrderedMap.mem_values.1 h)
  | formal h => exact Or.inr (Or.inl h)
  | unit hu h => exact Or.inl (hs.nodes _ _ hu n h)
  | site hu h => exact Or.inl (hcall (hs.sites _ _ hu n h))
  | call h => exact Or.inl (hcall h)
  | caller h => exact Or.inr (Or.inr h)

namespace Registry.Orderly

/-- What a live graph names is live. -/
theorem live_of_mentions (hr : r.Orderly m) (hy : r.graph? g = some y) (hn : y.Mentions n) :
    ∃ x, r.node? n = some x := by
  have hplace : ∀ p, r.occupant p = some n → ∃ x, r.node? n = some x := by
    intro p hp
    obtain ⟨x, hx, _⟩ := hr.housed.live p n hp
    exact ⟨x, hx⟩
  rcases (hr.shaped g y hy).holds_of_mentions hn with ⟨key, hkey⟩ | hf | hc
  · exact hplace (.index g key) (by rw [occupant, hy]; exact hkey)
  · obtain ⟨t, b, hocc⟩ := (mem_formals_nodes hy).1 hf
    exact hplace _ hocc
  · obtain ⟨x, hx, _⟩ := (hr.mirrored.calls n g).2 ⟨y, hy, hc⟩
    exact ⟨x, hx⟩

/-- The graph of a live node is live. -/
theorem live_of_ownedBy (hr : r.Orderly m) (ho : r.OwnedBy n g) : ∃ y, r.graph? g = some y := by
  obtain ⟨x, hx, hg⟩ := ho
  obtain ⟨p, hp⟩ := hr.housed.full n x hx
  obtain ⟨x', hx', hfits⟩ := hr.housed.live p n hp
  rw [hx] at hx'
  cases hx'
  exact hr.live_of_keeper hp (hfits.graph?_eq.symm.trans hg)

end Registry.Orderly

namespace Session.Reachable

variable {m : Module} {s : Session}

/-- **Places.** After every run each live node is at one place: in the pool, in the index of a live
graph, or an end of a formal parameter of a live graph or of an actual parameter of a call. At every
place is a live node that belongs to the graph that keeps the place, a shared node to none, and the
calls are indexed and listed in a live graph. So the places tell how many nodes are live. -/
theorem one_place (hs : Session.Reachable m s) :
    (∀ n x, s.registry.node? n = some x → ∃! p, s.registry.occupant p = some n) ∧
    (∀ p n, s.registry.occupant p = some n →
      ∃ x, s.registry.node? n = some x ∧ x.graph? = s.registry.keeper? p ∧
        ∀ g, s.registry.keeper? p = some g → ∃ y, s.registry.graph? g = some y) ∧
    (∀ c t b n, s.registry.occupant (.actual c t b) = some n →
      ∃ g args, s.registry.IsCall m c g args) ∧
    s.registry.nodeCount = s.registry.pool.size +
      (s.registry.liveGraphs.map fun p => p.2.index.size + p.2.formals.nodes.length +
        (p.2.callNodes.toList.map fun c => (s.registry.actualNodes c).length).sum).sum := by
  obtain ⟨_, hr⟩ := hs.steady
  refine ⟨fun n x hx => ?_, fun p n hp => ?_, hr.orderly.equipped, hr.orderly.nodeCount_eq⟩
  · obtain ⟨p, hp⟩ := hr.orderly.housed.full n x hx
    exact ⟨p, hp, fun q hq => hr.orderly.housed.inj q p n hq hp⟩
  · obtain ⟨x, hx, hfits⟩ := hr.orderly.housed.live p n hp
    exact ⟨x, hx, hfits.graph?_eq, fun g hg => hr.orderly.live_of_keeper hp hg⟩

/-- The actual parameter that `main` has for the object is at one place. -/
theorem one_place_of_ticks : ∃ o s, ((Session.start .ticks).step (.root none)).2 = .ok (o, s) ∧
    ∃! p, s.registry.occupant p = some ⟨16⟩ := by
  have hlive : ((Session.start .ticks).step (.root none)).2.toOption.any (fun p =>
      (p.2.registry.node? ⟨16⟩).isSome) = true := by decide +kernel
  obtain ⟨⟨o, s⟩, hstep, htest⟩ := exists_ok_of_any hlive
  obtain ⟨x, hx⟩ := Option.isSome_iff_exists.1 htest
  have hs : Session.Reachable .ticks s := .step .start hstep
  exact ⟨o, s, hstep, hs.one_place.1 ⟨16⟩ x hx⟩

/-- **Handles.** After every run the edges of control and of data are kept at both ends, between
live nodes. A live node belongs to a live graph and is linked to live graphs, and its actual
parameters are live, as are the nodes of the pool. In a live graph the edges between units are kept
at both ends, between units that are there, and every node that the graph names is live: its entry
and its exit, the nodes in its index and its units, its parameters, its calls and its callers. -/
theorem no_dangling (hs : Session.Reachable m s) :
    (∀ a b, s.registry.Controls a b ↔ s.registry.ControlledBy b a) ∧
    (∀ a b, s.registry.Feeds a b ↔ s.registry.FedBy b a) ∧
    (∀ a x, s.registry.node? a = some x →
      (∀ g, x.graph? = some g ∨ g ∈ x.callees → ∃ y, s.registry.graph? g = some y) ∧
        ∀ n ∈ x.actuals.nodes, ∃ z, s.registry.node? n = some z) ∧
    (∀ n ∈ s.registry.pool.values, ∃ x, s.registry.node? n = some x) ∧
    ∀ g y, s.registry.graph? g = some y →
      (∀ b u, y.unit? b = some u → u.key = b) ∧
      (∀ a b label, y.Leads a b label ↔ y.LedBy b a label) ∧
      (∀ a b, y.Governs a b ↔ y.GovernedBy b a) ∧
      ∀ n, y.Mentions n → ∃ x, s.registry.node? n = some x := by
  obtain ⟨_, hr⟩ := hs.steady
  have ho := hr.orderly
  refine ⟨ho.mirrored.controls, ho.mirrored.feeds, fun a x hx => ⟨?_, ?_⟩, ?_, fun g y hy => ?_⟩
  · intro g hg
    rcases hg with hg | hg
    · exact ho.live_of_ownedBy ⟨x, hx, hg⟩
    · obtain ⟨y, hy, _⟩ := (ho.mirrored.calls a g).1 ⟨x, hx, hg⟩
      exact ⟨y, hy⟩
  · intro n hn
    -- what fills a place is live
    obtain ⟨t, b, hocc⟩ := (mem_actuals_nodes hx).1 hn
    obtain ⟨z, hz, _⟩ := ho.housed.live _ n hocc
    exact ⟨z, hz⟩
  · intro n hn
    obtain ⟨v, hocc⟩ := mem_pool_values.1 hn
    obtain ⟨x, hx, _⟩ := ho.housed.live _ n hocc
    exact ⟨x, hx⟩
  · have hshaped := ho.shaped g y hy
    exact ⟨hshaped.keyed, hshaped.leads, hshaped.governs, fun n hn => ho.live_of_mentions hy hn⟩

/-- The call in `main` of the allocating function is listed there, and so it is live. -/
theorem call_live_of_ticks : ∃ o s, ((Session.start .ticks).step (.root none)).2 = .ok (o, s) ∧
    ∃ x, s.registry.node? ⟨5⟩ = some x := by
  have hlisted : ((Session.start .ticks).step (.root none)).2.toOption.any (fun p =>
      (p.2.registry.graph? ⟨0⟩).any fun y => decide (⟨5⟩ ∈ y.callNodes)) = true := by
    decide +kernel
  obtain ⟨⟨o, s⟩, hstep, htest⟩ := exists_ok_of_any hlisted
  obtain ⟨y, hy, hc⟩ := (Option.any_eq_true _ _).1 htest
  have hs : Session.Reachable .ticks s := .step .start hstep
  obtain ⟨_, _, _, hnames⟩ := hs.no_dangling.2.2.2.2 ⟨0⟩ y hy
  exact ⟨o, s, hstep, hnames ⟨5⟩ (.call (of_decide_eq_true hc))⟩

end Session.Reachable

end Sdg
