import Mathlib.Algebra.GroupWithZero.Nat
import Mathlib.Data.List.Nodup
import Sdg.Proofs.Registry.Order

/-!
# The inventory of a registry

All places of a registry, gone through one after the other: the pool, and for each live graph its
index, its formal parameters and the actual parameters of its calls. In an orderly registry this
lists every live node once. So the number of live nodes is told by the sizes of what holds them, and
no node is anywhere that is not held.

Main results:

* `Orderly.mem_inventory_iff`, `Orderly.nodup_inventory` — the inventory lists every live node once;
* `Orderly.nodeCount_eq` — how many nodes are live.
-/

namespace Sdg

/-- No place is listed twice. -/
theorem Arena.nodup_places {α : Type} (a : Arena α) : (a.live.map Prod.fst).Nodup := by
  rw [live, List.map_filterMap]
  refine List.Nodup.filterMap (fun i j k hi hj => ?_) List.nodup_range
  -- a place is listed by its own number
  simp only [Option.map_map, Option.mem_def, Option.map_eq_some_iff] at hi hj
  obtain ⟨_, _, rfl⟩ := hi
  obtain ⟨_, _, hk⟩ := hj
  exact hk.symm

/-! ## Parameters -/

namespace Parameters

variable {p : Parameters} {s t : Slot} {q q' : ParameterPair} {n : NodeId}

/-- The slots with a pair in them. -/
def slots (p : Parameters) : List Slot :=
  p.own.keys.map .own ++ p.globals.keys.map .global ++ p.variadic?.toList.map fun _ => .variadic

/-- The ends of a pair. -/
def ends (q : ParameterPair) : List NodeId := [q.input, q.output]

theorem nodup_slots (p : Parameters) : p.slots.Nodup := by
  have hown : (p.own.keys.map Slot.own).Nodup :=
    List.Nodup.map (fun _ _ h => Slot.own.inj h) p.own.nodup_keys
  have hglobals : (p.globals.keys.map Slot.global).Nodup :=
    List.Nodup.map (fun _ _ h => Slot.global.inj h) p.globals.nodup_keys
  have hvariadic : (p.variadic?.toList.map fun _ => Slot.variadic).Nodup := by
    cases p.variadic? <;> simp
  -- slots of two kinds are never equal
  refine (hown.append hglobals ?_).append hvariadic ?_
  · simp [List.disjoint_left]
  · intro s hs hv
    obtain ⟨_, _, rfl⟩ := List.mem_map.1 hv
    simp at hs

theorem pairs_eq (p : Parameters) : p.pairs = p.slots.filterMap p.at? := by
  rw [pairs, slots, List.filterMap_append, List.filterMap_append, List.filterMap_map,
    List.filterMap_map, List.filterMap_map, OrderedMap.values_eq, OrderedMap.values_eq]
  congr 1
  cases h : p.variadic? <;> simp [at?, h]

theorem exists_side_of_mem_ends (hq : p.at? s = some q) (hn : n ∈ ends q) :
    ∃ b, (p.at? s).map (·.side b) = some n := by
  rw [hq]
  rcases List.mem_cons.1 hn with rfl | hn
  · exact ⟨false, rfl⟩
  · exact ⟨true, by rw [List.mem_singleton.1 hn]; rfl⟩

/-- The nodes of a set of parameters are listed once, if each is one end of one parameter. -/
theorem nodup_nodes (h : ∀ s b t c n, (p.at? s).map (·.side b) = some n →
    (p.at? t).map (·.side c) = some n → s = t ∧ b = c) : p.nodes.Nodup := by
  have hnodes : p.nodes = (p.slots.filterMap p.at?).flatMap ends := by rw [← pairs_eq]; rfl
  rw [hnodes, List.nodup_flatMap, List.pairwise_filterMap]
  constructor
  · -- the two ends of a pair differ
    intro q hq
    obtain ⟨s, _, hs⟩ := List.mem_filterMap.1 hq
    refine List.nodup_cons.2 ⟨fun hm => ?_, List.nodup_singleton _⟩
    have hends := h s false s true q.output (by rw [hs, ← List.mem_singleton.1 hm]; rfl)
      (by rw [hs]; rfl)
    exact Bool.false_ne_true hends.2
  · -- the pairs of two slots have no end in common
    refine p.nodup_slots.imp fun hne q hq q' hq' => List.disjoint_left.2 ?_
    intro n hn hn'
    obtain ⟨b, hb⟩ := exists_side_of_mem_ends hq hn
    obtain ⟨c, hc⟩ := exists_side_of_mem_ends hq' hn'
    exact hne (h _ b _ c n hb hc).1

end Parameters

/-! ## The inventory -/

namespace Registry

/-- The actual parameters of a call. -/
def actualNodes (r : Registry) (c : NodeId) : List NodeId :=
  match r.node? c with
  | some x => x.actuals.nodes
  | none => []

/-- The nodes of a graph: indexed ones, formal parameters, and actual parameters of its calls. -/
def graphNodes (r : Registry) (y : Graph) : List NodeId :=
  y.index.values ++ y.formals.nodes ++ y.callNodes.toList.flatMap r.actualNodes

/-- The shared nodes, and the nodes of all live graphs. -/
def inventory (r : Registry) : List NodeId :=
  r.pool.values ++ r.liveGraphs.flatMap fun p => r.graphNodes p.2

variable {m : Module} {r : Registry} {g : GraphId} {x : Node} {y : Graph} {c n : NodeId}

theorem mem_liveNodes : (n, x) ∈ r.liveNodes ↔ r.node? n = some x := by
  unfold liveNodes node?
  rw [List.mem_map]
  constructor
  · intro h
    obtain ⟨⟨i, z⟩, hz, he⟩ := h
    cases he
    exact Arena.mem_live.1 hz
  · intro h
    exact ⟨(n.index, x), Arena.mem_live.2 h, rfl⟩

theorem nodup_nodeNames (r : Registry) : (r.liveNodes.map Prod.fst).Nodup := by
  rw [liveNodes, List.map_map]
  have hmk : Function.Injective NodeId.mk := fun _ _ h => NodeId.mk.inj h
  have h := r.nodes.nodup_places.map hmk
  rw [List.map_map] at h
  exact h

theorem nodup_graphNames (r : Registry) : (r.liveGraphs.map Prod.fst).Nodup := by
  rw [liveGraphs, List.map_map]
  have hmk : Function.Injective GraphId.mk := fun _ _ h => GraphId.mk.inj h
  have h := r.graphs.nodup_places.map hmk
  rw [List.map_map] at h
  exact h

/-! ## Where the listed nodes are -/

theorem mem_pool_values : n ∈ r.pool.values ↔ ∃ v, r.occupant (.pool v) = some n :=
  OrderedMap.mem_values

theorem mem_index_values (hy : r.graph? g = some y) :
    n ∈ y.index.values ↔ ∃ key, r.occupant (.index g key) = some n := by
  rw [OrderedMap.mem_values]
  simp [occupant, hy]

theorem mem_formals_nodes (hy : r.graph? g = some y) :
    n ∈ y.formals.nodes ↔ ∃ s b, r.occupant (.formal g s b) = some n := by
  rw [Parameters.mem_nodes]
  simp [occupant, hy]

theorem mem_actuals_nodes (hx : r.node? c = some x) :
    n ∈ x.actuals.nodes ↔ ∃ s b, r.occupant (.actual c s b) = some n := by
  rw [Parameters.mem_nodes]
  simp [occupant, hx]

theorem mem_actualNodes : n ∈ r.actualNodes c ↔ ∃ s b, r.occupant (.actual c s b) = some n := by
  unfold actualNodes
  cases hx : r.node? c with
  | none => simp [occupant, hx]
  | some x => exact mem_actuals_nodes hx

/-! ## Who owns them -/

theorem Housed.ownedBy_of_index (hh : r.Housed) (hy : r.graph? g = some y)
    (hn : n ∈ y.index.values) : r.OwnedBy n g := by
  obtain ⟨key, hocc⟩ := (mem_index_values hy).1 hn
  obtain ⟨x, hx, _, hxg⟩ := hh.live _ n hocc
  exact ⟨x, hx, hxg⟩

theorem Housed.ownedBy_of_formal (hh : r.Housed) (hy : r.graph? g = some y)
    (hn : n ∈ y.formals.nodes) : r.OwnedBy n g := by
  obtain ⟨s, b, hocc⟩ := (mem_formals_nodes hy).1 hn
  obtain ⟨x, hx, hxg, _⟩ := hh.live _ n hocc
  exact ⟨x, hx, hxg⟩

theorem Housed.ownedBy_of_actual (hh : r.Housed) (hx : r.node? c = some x)
    (ho : r.OwnedBy c g) (hn : n ∈ x.actuals.nodes) : r.OwnedBy n g := by
  obtain ⟨s, b, hocc⟩ := (mem_actuals_nodes hx).1 hn
  obtain ⟨z, hz, ⟨x', hx', hsame⟩, _⟩ := hh.live _ n hocc
  obtain ⟨x'', hx'', hxg⟩ := ho
  rw [hx'] at hx''
  cases hx''
  exact ⟨z, hz, hsame.symm.trans hxg⟩

/-- What a graph lists it owns. -/
theorem Housed.ownedBy_of_mem_graphNodes (hh : r.Housed) (hs : y.Shaped m)
    (hy : r.graph? g = some y) (hn : n ∈ r.graphNodes y) : r.OwnedBy n g := by
  rw [graphNodes, List.mem_append, List.mem_append, List.mem_flatMap] at hn
  rcases hn with (hn | hn) | ⟨c, hc, hn⟩
  · exact hh.ownedBy_of_index hy hn
  · exact hh.ownedBy_of_formal hy hn
  · -- a call is in the index, and its parameters belong to its graph
    obtain ⟨v, _, _, hkey, _⟩ := hs.calls c hc
    have ho := hh.ownedBy_of_index hy (OrderedMap.mem_values.2 ⟨_, hkey⟩)
    obtain ⟨x, hx, _⟩ := id ho
    rw [actualNodes, hx] at hn
    exact hh.ownedBy_of_actual hx ho hn

/-- A node is in the inventory if it has a place. -/
theorem Orderly.mem_inventory_iff (hr : r.Orderly m) :
    n ∈ r.inventory ↔ ∃ p, r.occupant p = some n := by
  rw [inventory, List.mem_append, List.mem_flatMap]
  constructor
  · intro h
    rcases h with hn | ⟨⟨g, y⟩, hy, hn⟩
    · obtain ⟨v, hocc⟩ := mem_pool_values.1 hn
      exact ⟨_, hocc⟩
    · rw [mem_liveGraphs] at hy
      obtain ⟨x, hx, _⟩ := hr.housed.ownedBy_of_mem_graphNodes (hr.shaped g y hy) hy hn
      exact hr.housed.full n x hx
  · intro h
    obtain ⟨p, hp⟩ := h
    cases p with
    | pool v => exact Or.inl (mem_pool_values.2 ⟨v, hp⟩)
    | index g key =>
      obtain ⟨y, hy, _⟩ := Option.bind_eq_some_iff.1 hp
      have hn := (mem_index_values hy).2 ⟨key, hp⟩
      exact Or.inr ⟨(g, y), mem_liveGraphs.2 hy, by simp [graphNodes, hn]⟩
    | formal g s b =>
      obtain ⟨y, hy, _⟩ := Option.bind_eq_some_iff.1 hp
      have hn := (mem_formals_nodes hy).2 ⟨s, b, hp⟩
      exact Or.inr ⟨(g, y), mem_liveGraphs.2 hy, by simp [graphNodes, hn]⟩
    | actual c s b =>
      -- only a call has actual parameters, and a graph lists its calls
      obtain ⟨g, args, x, y, _, _, _, hy, _, _, hc⟩ := hr.equipped c s b n hp
      have hn : n ∈ y.callNodes.toList.flatMap r.actualNodes :=
        List.mem_flatMap.2 ⟨c, hc, mem_actualNodes.2 ⟨s, b, hp⟩⟩
      refine Or.inr ⟨(g, y), mem_liveGraphs.2 hy, ?_⟩
      simp only [graphNodes, List.mem_append, hn, or_true]

/-- No node is twice in an index. -/
theorem Housed.nodup_index (hh : r.Housed) (hy : r.graph? g = some y) : y.index.values.Nodup := by
  refine OrderedMap.nodup_values fun k l n hk hl => ?_
  have hplace := hh.inj (.index g k) (.index g l) n (by rw [occupant, hy]; exact hk)
    (by rw [occupant, hy]; exact hl)
  cases hplace
  rfl

theorem Housed.nodup_graphNodes (hh : r.Housed) (hy : r.graph? g = some y) :
    (r.graphNodes y).Nodup := by
  -- a node fills one place only, so no two slots have the same one
  have hformals : y.formals.nodes.Nodup := by
    refine Parameters.nodup_nodes fun s b t c n hs ht => ?_
    have hplace := hh.inj (.formal g s b) (.formal g t c) n (by rw [occupant, hy]; exact hs)
      (by rw [occupant, hy]; exact ht)
    cases hplace
    exact ⟨rfl, rfl⟩
  have hactual : ∀ c, (r.actualNodes c).Nodup := by
    intro c
    unfold actualNodes
    cases hx : r.node? c with
    | none => exact List.nodup_nil
    | some x =>
      refine Parameters.nodup_nodes fun s b t d n hs ht => ?_
      have hplace := hh.inj (.actual c s b) (.actual c t d) n (by rw [occupant, hx]; exact hs)
        (by rw [occupant, hx]; exact ht)
      cases hplace
      exact ⟨rfl, rfl⟩
  have hactuals : (y.callNodes.toList.flatMap r.actualNodes).Nodup := by
    rw [List.nodup_flatMap]
    refine ⟨fun c _ => hactual c, y.callNodes.nodup.imp fun hne => List.disjoint_left.2 ?_⟩
    intro n hn hn'
    obtain ⟨s, b, hocc⟩ := mem_actualNodes.1 hn
    obtain ⟨t, c, hocc'⟩ := mem_actualNodes.1 hn'
    have hplace := hh.inj _ _ n hocc hocc'
    cases hplace
    exact hne rfl
  -- a place is not of two kinds
  refine ((hh.nodup_index hy).append hformals ?_).append hactuals ?_
  · intro n hn hn'
    obtain ⟨key, hocc⟩ := (mem_index_values hy).1 hn
    obtain ⟨s, b, hocc'⟩ := (mem_formals_nodes hy).1 hn'
    have hplace := hh.inj _ _ n hocc hocc'
    cases hplace
  · intro n hn hn'
    obtain ⟨c, _, hn'⟩ := List.mem_flatMap.1 hn'
    obtain ⟨s, b, hocc'⟩ := mem_actualNodes.1 hn'
    rcases List.mem_append.1 hn with hn | hn
    · obtain ⟨key, hocc⟩ := (mem_index_values hy).1 hn
      have hplace := hh.inj _ _ n hocc hocc'
      cases hplace
    · obtain ⟨t, d, hocc⟩ := (mem_formals_nodes hy).1 hn
      have hplace := hh.inj _ _ n hocc hocc'
      cases hplace

/-- **Inventory.** No node is listed twice. -/
theorem Orderly.nodup_inventory (hr : r.Orderly m) : r.inventory.Nodup := by
  have hpool : r.pool.values.Nodup := by
    refine OrderedMap.nodup_values fun k l n hk hl => ?_
    have hplace := hr.housed.inj (.pool k) (.pool l) n hk hl
    cases hplace
    rfl
  have hgraphs : (r.liveGraphs.flatMap fun p => r.graphNodes p.2).Nodup := by
    rw [List.nodup_flatMap]
    refine ⟨fun p hp => hr.housed.nodup_graphNodes (mem_liveGraphs.1 hp), ?_⟩
    refine (List.Nodup.of_map _ r.nodup_graphNames).imp_of_mem fun {p q} hp hq hne => ?_
    obtain ⟨g, y⟩ := p
    obtain ⟨h, z⟩ := q
    rw [mem_liveGraphs] at hp hq
    -- a node has one owner
    intro n hn hn'
    have hg := OwnedBy.inj (hr.housed.ownedBy_of_mem_graphNodes (hr.shaped g y hp) hp hn)
      (hr.housed.ownedBy_of_mem_graphNodes (hr.shaped h z hq) hq hn')
    subst hg
    rw [hp] at hq
    cases hq
    exact hne rfl
  refine hpool.append hgraphs fun n hn hn' => ?_
  -- a shared node has no owner
  obtain ⟨v, hocc⟩ := mem_pool_values.1 hn
  obtain ⟨x, hx, _, hnone⟩ := hr.housed.live _ n hocc
  obtain ⟨⟨g, y⟩, hy, hn'⟩ := List.mem_flatMap.1 hn'
  rw [mem_liveGraphs] at hy
  obtain ⟨x', hx', hxg⟩ := hr.housed.ownedBy_of_mem_graphNodes (hr.shaped g y hy) hy hn'
  rw [hx] at hx'
  cases hx'
  rw [hnone] at hxg
  cases hxg

/-- **Count.** The live nodes are the shared ones, and for each live graph the indexed ones, the
formal parameters and the actual parameters of its calls. -/
theorem Orderly.nodeCount_eq (hr : r.Orderly m) : r.nodeCount = r.pool.size +
    (r.liveGraphs.map fun p => p.2.index.size + p.2.formals.nodes.length +
      (p.2.callNodes.toList.map fun c => (r.actualNodes c).length).sum).sum := by
  -- both lists have the live nodes, each once
  have hperm : (r.liveNodes.map Prod.fst).Perm r.inventory := by
    refine (List.perm_ext_iff_of_nodup r.nodup_nodeNames hr.nodup_inventory).2 fun n => ?_
    rw [hr.mem_inventory_iff, List.mem_map]
    constructor
    · intro h
      obtain ⟨⟨k, x⟩, hx, rfl⟩ := h
      exact hr.housed.full k x (mem_liveNodes.1 hx)
    · intro h
      obtain ⟨p, hp⟩ := h
      obtain ⟨x, hx, _⟩ := hr.housed.live p n hp
      exact ⟨(n, x), mem_liveNodes.2 hx, rfl⟩
  calc r.nodeCount = (r.liveNodes.map Prod.fst).length := by
        rw [List.length_map, liveNodes, List.length_map]
        rfl
    _ = r.inventory.length := hperm.length_eq
    _ = _ := by
        simp only [inventory, graphNodes, List.length_append, List.length_flatMap,
          OrderedMap.length_values]

end Registry

end Sdg
