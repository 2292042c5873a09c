import Sdg.Proofs.Registry.Globals
import Sdg.Proofs.Twins.Likeness

/-!
# A name that is passed over

A name of a graph may be spent on nothing: then no graph ever has it, and later graphs get names
that are larger by one. Nothing else becomes different. Two registries of which one has passed over
a name are alike, so whatever is done to both leaves such registries.

Main results:

* `Registry.Skips.freeNode` — a node may be freed in both;
* `Likeness.skip` — registries of which one has passed over a name are alike.
-/

namespace Sdg

open Relator

/-! ## Names -/

/-- The name of the graph `g` where the name `k` is passed over. -/
def GraphId.skip (k g : GraphId) : GraphId := if g.index < k.index then g else ⟨g.index + 1⟩

namespace GraphId

variable {k g h : GraphId}

theorem skip_of_lt (h : g.index < k.index) : k.skip g = g := if_pos h

theorem skip_of_le (h : k.index ≤ g.index) : k.skip g = ⟨g.index + 1⟩ := if_neg (Nat.not_lt.2 h)

theorem skip_ne (k g : GraphId) : k.skip g ≠ k := by
  intro h
  rcases Nat.lt_or_ge g.index k.index with hlt | hle
  · rw [skip_of_lt hlt] at h
    subst h
    omega
  · rw [skip_of_le hle] at h
    subst h
    simp only at hle
    omega

theorem skip_injective (k : GraphId) : Function.Injective k.skip := by
  intro g h he
  obtain ⟨i⟩ := g
  obtain ⟨j⟩ := h
  unfold skip at he
  split at he <;> split at he <;> simp only [GraphId.mk.injEq] at * <;> omega

/-- Only the name that is passed over is not used. -/
theorem exists_skip (h : g ≠ k) : ∃ i, k.skip i = g := by
  rcases Nat.lt_trichotomy g.index k.index with hlt | heq | hgt
  · exact ⟨g, skip_of_lt hlt⟩
  · exact absurd (congrArg GraphId.mk heq) h
  · refine ⟨⟨g.index - 1⟩, ?_⟩
    rw [skip_of_le (by simp only; omega)]
    exact congrArg GraphId.mk (by simp only; omega)

end GraphId

/-- Nodes keep their names, and a name of a graph is passed over. -/
def Naming.skip (k : GraphId) : Naming where
  Node := Eq
  Graph g g' := g' = k.skip g
  biUnique_node := ⟨fun _ _ _ h h' => h.trans h'.symm, fun _ _ _ h h' => h.symm.trans h'⟩
  biUnique_graph :=
    ⟨fun _ _ _ h h' => k.skip_injective (h.symm.trans h'), fun _ _ _ h h' => h.trans h'.symm⟩

/-! ## What names no graph -/

section

variable {k : GraphId}

theorem ParameterPair.Like.refl (q : ParameterPair) : q.Like (.skip k) q := ⟨rfl, rfl⟩

theorem Parameters.Like.refl (p : Parameters) : p.Like (.skip k) p where
  own := .refl .refl _
  globals := .refl .refl _
  variadic? := optionRel_refl .refl _

theorem BlockUnit.Like.refl (u : BlockUnit) : u.Like (.skip k) u where
  key := rfl
  nodes := List.forall₂_same.2 fun _ _ => rfl
  successors := rfl
  predecessors := rfl
  callSites := .refl fun _ _ => rfl
  controls := rfl
  controlledBy := rfl

theorem Graph.Like.refl (y : Graph) : y.Like (.skip k) y where
  function := rfl
  phase := rfl
  refcount := rfl
  entryNode? := optionRel_refl (fun _ => rfl) _
  exitNode? := optionRel_refl (fun _ => rfl) _
  entryBlock? := rfl
  units := .refl .refl _
  exitUnit? := optionRel_refl .refl _
  index := .refl (fun _ => rfl) _
  formals := .refl _
  callNodes := .refl fun _ _ => rfl
  callers := .refl fun _ _ => rfl

/-- A node names its graph and those that it is linked to. If none of them is moved, it is alike. -/
theorem Node.Like.refl {x : Node} (hg : ∀ g ∈ x.graph?, g.index < k.index)
    (hc : ∀ g ∈ x.callees, g.index < k.index) : x.Like (.skip k) x where
  key := rfl
  graph? := by
    cases hx : x.graph? with
    | none => exact .none
    | some g => exact .some (GraphId.skip_of_lt (hg g hx)).symm
  block? := rfl
  controls := .refl fun _ _ => rfl
  controlledBy := .refl fun _ _ => rfl
  feeds := .refl fun _ _ => rfl
  fedBy := .refl fun _ _ => rfl
  callees := .refl fun g hgc => (GraphId.skip_of_lt (hc g hgc)).symm
  actuals? := optionRel_refl .refl _

end

/-! ## Registries -/

namespace Registry

/-- The registry `s` has passed over the name `k`, and is else alike. -/
structure Skips (k : GraphId) (r s : Registry) : Prop where
  node : ∀ n, Option.Rel (Node.Like (.skip k)) (r.node? n) (s.node? n)
  graph : ∀ g, Option.Rel (Graph.Like (.skip k)) (r.graph? g) (s.graph? (k.skip g))
  lookup? : ∀ f, Option.Rel (Naming.skip k).Graph (r.lookup? f) (s.lookup? f)
  skipped : s.graph? k = none
  pool : s.pool = r.pool
  gathered : s.gathered = r.gathered
  nextNode : s.nextNode = r.nextNode
  nextGraph : s.nextGraph = k.skip r.nextGraph
  passed : k.index ≤ r.nextGraph.index

namespace Skips

variable {k : GraphId} {r s r' s' : Registry} {n : NodeId} {g : GraphId} {x x' : Node}
  {y y' : Graph}

theorem next_eq (h : r.Skips k s) : s.graphs.next = r.graphs.next + 1 :=
  congrArg GraphId.index (h.nextGraph.trans (GraphId.skip_of_le h.passed))

/-- They are alike after a node was replaced in both. -/
theorem of_node {o o' : Option Node} (h : r.Skips k s) (ho : Option.Rel (Node.Like (.skip k)) o o')
    (hr : ∀ i, r'.node? i = if i = n then o else r.node? i)
    (hs : ∀ i, s'.node? i = if i = n then o' else s.node? i) (hrg : r'.graphs = r.graphs)
    (hsg : s'.graphs = s.graphs) (hrf : r'.byFunction = r.byFunction)
    (hsf : s'.byFunction = s.byFunction) (hp : s'.pool = r'.pool) (hg : s'.gathered = r'.gathered)
    (hnext : s'.nextNode = r'.nextNode) : r'.Skips k s' where
  node i := by
    rw [hr, hs]
    exact optionRel_ite .rfl ho fun _ => h.node i
  graph := by
    unfold graph?
    rw [hrg, hsg]
    exact h.graph
  lookup? f := by
    rw [lookup?_of_byFunction hrf, lookup?_of_byFunction hsf]
    exact h.lookup? f
  skipped := by
    unfold graph?
    rw [hsg]
    exact h.skipped
  pool := hp
  gathered := hg
  nextNode := hnext
  nextGraph := by
    unfold Registry.nextGraph
    rw [hrg, hsg]
    exact h.nextGraph
  passed := by
    unfold Registry.nextGraph
    rw [hrg]
    exact h.passed

/-- They are alike after a graph was replaced in both. -/
theorem of_graph {o o' : Option Graph} (h : r.Skips k s)
    (ho : Option.Rel (Graph.Like (.skip k)) o o')
    (hr : ∀ i, r'.graph? i = if i = g then o else r.graph? i)
    (hs : ∀ i, s'.graph? i = if i = k.skip g then o' else s.graph? i) (hrn : r'.nodes = r.nodes)
    (hsn : s'.nodes = s.nodes)
    (hf : ∀ f, Option.Rel (Naming.skip k).Graph (r'.lookup? f) (s'.lookup? f))
    (hp : s'.pool = r'.pool) (hg : s'.gathered = r'.gathered)
    (hnext : s'.graphs.next = r'.graphs.next + 1) (hle : r.graphs.next ≤ r'.graphs.next) :
    r'.Skips k s' where
  node := by
    unfold node?
    rw [hrn, hsn]
    exact h.node
  graph i := by
    rw [hr, hs]
    exact optionRel_ite k.skip_injective.eq_iff.symm ho fun _ => h.graph i
  lookup? := hf
  skipped := by
    rw [hs, if_neg (k.skip_ne g).symm]
    exact h.skipped
  pool := hp
  gathered := hg
  nextNode := by
    unfold Registry.nextNode
    rw [hrn, hsn]
    exact h.nextNode
  nextGraph := by
    -- the next name is beyond the one skipped on the right
    have hpassed : k.index ≤ r'.nextGraph.index := Nat.le_trans h.passed hle
    rw [GraphId.skip_of_le hpassed]
    exact congrArg GraphId.mk hnext
  passed := Nat.le_trans h.passed hle

/-! ## Freed nodes -/

theorem freeNode (h : r.Skips k s) (n : NodeId) : (r.freeNode n).Skips k (s.freeNode n) := by
  cases hx : r.node? n with
  | none =>
    have hx' := h.node n
    rw [hx] at hx'
    generalize ho : s.node? n = o at hx'
    cases hx'
    rwa [freeNode_of_none hx, freeNode_of_none ho]
  | some x =>
    obtain ⟨x', hx', hxx⟩ := optionRel_of_eq_some (h.node n) hx
    constructor
    case node =>
      intro i
      rw [node?_freeNode hx, node?_freeNode hx']
      refine optionRel_ite .rfl .none fun _ => optionRel_map (h.node i) fun z z' hz => ?_
      exact withoutNeighbour_like rfl hxx rfl hz
    case graph =>
      intro i
      rw [graph?_freeNode, graph?_freeNode]
      exact h.graph i
    case lookup? =>
      intro f
      rw [lookup?_of_byFunction (byFunction_freeNode r n),
        lookup?_of_byFunction (byFunction_freeNode s n)]
      exact h.lookup? f
    case skipped =>
      rw [graph?_freeNode]
      exact h.skipped
    case pool => rw [pool_freeNode, pool_freeNode, h.pool]
    case gathered => rw [gathered_freeNode, gathered_freeNode, h.gathered]
    case nextNode => rw [nextNode_freeNode, nextNode_freeNode, h.nextNode]
    case nextGraph => rw [nextGraph_freeNode, nextGraph_freeNode, h.nextGraph]
    case passed =>
      rw [nextGraph_freeNode]
      exact h.passed

end Skips

end Registry

/-- Registries of which one has passed over a name are alike. -/
def Likeness.skip (k : GraphId) : Likeness where
  toNaming := .skip k
  Holds r s := r.Skips k s
  node h hn := hn ▸ h.node _
  graph h hg := hg ▸ h.graph _
  lookup? f h := h.lookup? f
  nextNode h := h.nextNode.symm
  nextGraph h := h.nextGraph
  pushNode {r s x x'} h hx := by
    -- both sides give a new node the same name, since only a graph was skipped
    have hnext := h.nextNode
    refine h.of_node (.some hx) (Registry.node?_pushNode r x) (fun i => ?_) rfl rfl rfl rfl h.pool
      h.gathered ?_
    · rw [← hnext]
      exact Registry.node?_pushNode s x' i
    · simp only [Registry.nextNode, Registry.pushNode, Arena.next_push] at hnext ⊢
      exact congrArg (fun n : NodeId => (⟨n.index + 1⟩ : NodeId)) hnext
  pushGraph {r s y y'} h hy := by
    -- names of graphs go on from the same place on both sides, past the one skipped
    refine h.of_graph (.some hy) (Registry.graph?_pushGraph r y) (fun i => ?_) rfl rfl
      (Registry.lookup?_pushGraph_like h.lookup? hy.function h.nextGraph) h.pool h.gathered ?_ ?_
    · rw [← h.nextGraph]
      exact Registry.graph?_pushGraph s y' i
    · simp only [Registry.pushGraph, Arena.next_push, h.next_eq]
    · simp only [Registry.pushGraph, Arena.next_push]
      exact Nat.le_succ _
  setNode {r s n n' x x'} h hn hx := by
    subst hn
    refine h.of_node (optionRel_map (h.node n) fun _ _ _ => hx) (Registry.node?_setNode r n x)
      (Registry.node?_setNode s n x') rfl rfl rfl rfl h.pool h.gathered ?_
    simpa only [Registry.nextNode, Arena.next_set] using h.nextNode
  setGraph {r s g g' y y'} h hg hy := by
    subst hg
    refine h.of_graph (optionRel_map (h.graph g) fun _ _ _ => hy) (Registry.graph?_setGraph r g y)
      (Registry.graph?_setGraph s _ y') rfl rfl h.lookup? h.pool h.gathered ?_ ?_
    · simp only [Arena.next_set, h.next_eq]
    · exact Nat.le_of_eq (Arena.next_set _ _ _).symm
  freeNode h hn := hn ▸ h.freeNode _
  removeGraph {r s g g'} f h hg := by
    have hlookup := Registry.lookup?_removeGraph_like h.lookup? hg f
    subst hg
    refine h.of_graph .none (Registry.graph?_removeGraph r f g)
      (Registry.graph?_removeGraph s f _) rfl rfl hlookup h.pool h.gathered ?_ ?_
    · simp only [Registry.removeGraph, Arena.next_erase, h.next_eq]
    · exact Nat.le_of_eq (Arena.next_erase _ _).symm
  gather {r s c c'} h hc := by
    subst hc
    exact { h with gathered := congrArg (·.insert c) h.gathered }

/-- Shared nodes get the same names in both. -/
theorem Registry.Skips.withGlobals {k : GraphId} {r s : Registry} (h : r.Skips k s)
    (vs : List ValueId) : (r.withGlobals vs).Skips k (s.withGlobals vs) := by
  induction vs generalizing r s with
  | nil => exact h
  | cons v vs ih =>
    refine ih (r := r.share v) (s := s.share v) ?_
    unfold share
    rw [h.pool]
    split
    · exact h
    · let x := Node.fresh (.value v) none none
      have hx : x.Like (.skip k) x :=
        .refl (fun _ hg => by cases hg) fun g hg => absurd hg (OrderedSet.not_mem_empty g)
      have hpush := (Likeness.skip k).pushNode h hx
      have hpool : s.pool.insert v s.nextNode = r.pool.insert v r.nextNode := by
        rw [h.pool, h.nextNode]
      exact { hpush with pool := hpool }

end Sdg
