import Sdg.Proofs.Registry.Inventory

/-!
# Which nodes go

A node that a graph owns is in the index of the graph or an end of one of its formal parameters or
of an actual parameter of one of its calls. A teardown frees what it finds at these places, so it
leaves nothing behind.

Main result:

* `Registry.Tearable.mem_nodesOf_iff` — the nodes of some graphs are those that the graphs own.
-/

namespace Sdg

namespace Registry

/-- What a teardown asks of the registry. The graph with which it begins may have lost all its
references before. -/
structure Tearable (m : Module) (r : Registry) (g : GraphId) : Prop where
  mirrored : r.Mirrored
  housed : r.Housed
  linked : ∀ c h, r.Calls c h → ∃ k args, r.IsCall m c k args
  equipped : ∀ c s b n, r.occupant (.actual c s b) = some n → ∃ k args, r.IsCall m c k args
  standing : ∀ h y, r.graph? h = some y → y.phase ≠ .destroying
  enrolled : r.Enrolled
  held : ∀ h y, h ≠ g → r.graph? h = some y → y.refcount = 0 → ∀ c, c ∉ y.callers

/-- The nodes of the graphs in `S`: those in an index, the formal parameters, and the actual
parameters of calls in an index. -/
def nodesOf (r : Registry) (S : Set GraphId) : Set NodeId :=
  {n | ∃ g ∈ S, ∃ y, r.graph? g = some y ∧ (n ∈ y.index.values ∨ n ∈ y.formals.nodes ∨
    ∃ c x, c ∈ y.index.values ∧ r.node? c = some x ∧ n ∈ x.actuals.nodes)}

variable {m : Module} {r : Registry} {g h k : GraphId} {c n : NodeId} {x : Node} {y : Graph}

/-- A linked call is in the index of its graph. -/
theorem IsCall.mem_index {args : List ValueId} (hc : r.IsCall m c k args) (ho : r.OwnedBy c h) :
    ∃ y, r.graph? h = some y ∧ c ∈ y.index.values := by
  have heq : k = h := OwnedBy.inj hc.ownedBy ho
  obtain ⟨x, y, callee, _, _, hy, hi, _⟩ := hc
  subst heq
  exact ⟨y, hy, OrderedMap.mem_values.2 ⟨x.key, hi⟩⟩

/-- The nodes of some graphs are those that the graphs own. -/
theorem Tearable.mem_nodesOf_iff (ht : r.Tearable m g) (S : Set GraphId) :
    n ∈ r.nodesOf S ↔ ∃ h ∈ S, r.OwnedBy n h := by
  constructor
  · intro hq
    obtain ⟨h, hS, y, hy, hn | hn | ⟨c, x, hc, hx, hn⟩⟩ := hq
    · exact ⟨h, hS, ht.housed.ownedBy_of_index hy hn⟩
    · exact ⟨h, hS, ht.housed.ownedBy_of_formal hy hn⟩
    · exact ⟨h, hS, ht.housed.ownedBy_of_actual hx (ht.housed.ownedBy_of_index hy hc) hn⟩
  · intro hq
    obtain ⟨h, hS, x, hx, hxg⟩ := hq
    obtain ⟨p, hp⟩ := ht.housed.full n x hx
    obtain ⟨x', hx', hfits⟩ := ht.housed.live p n hp
    rw [hx] at hx'
    cases hx'
    -- where the node is tells to which of the three kinds it belongs
    cases p with
    | pool v =>
      -- a shared node belongs to no graph
      have hnone := hfits.2
      rw [hxg] at hnone
      cases hnone
    | index k key =>
      have hk : k = h := Option.some.inj (hfits.2.symm.trans hxg)
      subst hk
      obtain ⟨y, hy, hkey⟩ := Option.bind_eq_some_iff.1 hp
      exact ⟨k, hS, y, hy, Or.inl (OrderedMap.mem_values.2 ⟨key, hkey⟩)⟩
    | formal k s b =>
      have hk : k = h := Option.some.inj (hfits.1.symm.trans hxg)
      subst hk
      obtain ⟨y, hy, hs⟩ := Option.bind_eq_some_iff.1 hp
      exact ⟨k, hS, y, hy, Or.inr (Or.inl (Parameters.mem_nodes.2 ⟨s, b, hs⟩))⟩
    | actual c s b =>
      obtain ⟨z, hz, hzg⟩ := hfits.1
      -- its call belongs to the same graph, and is in the index there
      obtain ⟨k, args, hcall⟩ := ht.equipped c s b n hp
      obtain ⟨y, hy, hc⟩ := hcall.mem_index ⟨z, hz, hzg.trans hxg⟩
      obtain ⟨z', hz', hs⟩ := Option.bind_eq_some_iff.1 hp
      exact ⟨h, hS, y, hy, Or.inr (Or.inr ⟨c, z', hc, hz', Parameters.mem_nodes.2 ⟨s, b, hs⟩⟩)⟩

/-- The actual parameters of a call are no indexed nodes. -/
theorem Housed.actual_not_mem_index (hh : r.Housed) (hy : r.graph? h = some y)
    (hx : r.node? c = some x) (hn : n ∈ x.actuals.nodes) : n ∉ y.index.values := by
  intro hi
  obtain ⟨s, b, hocc⟩ := (mem_actuals_nodes hx).1 hn
  obtain ⟨key, hocc'⟩ := (mem_index_values hy).1 hi
  -- a node has one place
  have hplace := hh.inj _ _ n hocc hocc'
  cases hplace

end Registry

end Sdg
