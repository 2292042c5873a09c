import Sdg.Proofs.Lookup.Modules
import Sdg.Proofs.Maintained
import Sdg.Proofs.Registry.Roster
import Sdg.Proofs.Teardown.Freeing

/-!
# Registries with ids in range

A registry keeps ids of the module in three places: the function of a graph, the values that its
formal parameters stand for, and the keys of nodes. Work on a closed module enters only ids in range
there: what it enters was answered by the module, or it was given, and then it asks the module about
it first. If what is given is in range as well, it ends in no fault about an id without an entry.
This module has the rules for such work and goes through the pieces that all other work is made of.

Main results:

* `resolves_updateNode`, `resolves_updateGraph` — changes that leave the ids alone;
* `resolves_addUnitNode`, `resolves_addPair` — new nodes for what is in range;
* `resolves_destroy` — teardowns.
-/

namespace Sdg

/-- A fault that is not about an id without an entry. -/
abbrev Fault.Resolved (f : Fault) : Prop := ∀ x, f ≠ .missing x

/-- Whether the ids that a graph keeps are in range. -/
structure Graph.Within (y : Graph) (m : Module) : Prop where
  function : y.function.Within m
  formals : ∀ v, y.formals.contains v = true → v.Within m

/-- Whether all ids that a registry keeps are in range. -/
structure Registry.Within (r : Registry) (m : Module) : Prop where
  graph : ∀ g y, r.graph? g = some y → y.Within m
  node : ∀ n x, r.node? n = some x → x.key.Within m

namespace Registry.Within

variable {m : Module} {r : Registry} {n : NodeId} {g : GraphId} {x : Node} {y : Graph}

theorem empty (m : Module) : Registry.empty.Within m where
  graph g y hy := by cases hy
  node n x hx := by cases hx

theorem pushNode (hr : r.Within m) (hx : x.key.Within m) : (r.pushNode x).Within m where
  graph := hr.graph
  node k z hz := by
    rw [node?_pushNode] at hz
    split at hz
    · cases hz
      exact hx
    · exact hr.node k z hz

theorem pushGraph (hr : r.Within m) (hy : y.Within m) : (r.pushGraph y).Within m where
  graph k z hz := by
    rw [graph?_pushGraph] at hz
    split at hz
    · cases hz
      exact hy
    · exact hr.graph k z hz
  node := hr.node

theorem setNode (hr : r.Within m) (hx : x.key.Within m) (i : Nat) :
    Registry.Within { r with nodes := r.nodes.set i x } m where
  graph := hr.graph
  node k z hz := by
    unfold node? at hz
    rw [Arena.get?_set] at hz
    split at hz
    · obtain ⟨_, _, rfl⟩ := Option.map_eq_some_iff.1 hz
      exact hx
    · exact hr.node k z hz

theorem setGraph (hr : r.Within m) (hy : y.Within m) (i : Nat) :
    Registry.Within { r with graphs := r.graphs.set i y } m where
  graph k z hz := by
    unfold graph? at hz
    rw [Arena.get?_set] at hz
    split at hz
    · obtain ⟨_, _, rfl⟩ := Option.map_eq_some_iff.1 hz
      exact hy
    · exact hr.graph k z hz
  node := hr.node

theorem reviseNode {f : Node → Node} (hr : r.Within m) (hf : ∀ x, (f x).key = x.key) :
    (r.reviseNode n f).Within m := by
  unfold Registry.reviseNode
  split
  · rename_i x hx
    exact hr.setNode (hf x ▸ hr.node n x hx) n.index
  · exact hr

theorem reviseGraph {f : Graph → Graph} (hr : r.Within m) (hf : ∀ y, y.Within m → (f y).Within m) :
    (r.reviseGraph g f).Within m := by
  unfold Registry.reviseGraph
  split
  · rename_i y hy
    exact hr.setGraph (hf y (hr.graph g y hy)) g.index
  · exact hr

theorem removeGraph (hr : r.Within m) (f : FunctionId) (g : GraphId) :
    (r.removeGraph f g).Within m where
  graph k z hz := by
    rw [graph?_removeGraph] at hz
    split at hz
    · cases hz
    · exact hr.graph k z hz
  node := hr.node

theorem freeNode (hr : r.Within m) : (r.freeNode n).Within m where
  graph k z hz := hr.graph k z (by rwa [graph?_freeNode] at hz)
  node k z hz := by
    cases hx : r.node? n with
    | none =>
      rw [freeNode_of_none hx] at hz
      exact hr.node k z hz
    | some x =>
      rw [node?_freeNode hx] at hz
      split at hz
      · cases hz
      · -- a neighbour loses an edge and nothing else
        obtain ⟨w, hw, rfl⟩ := Option.map_eq_some_iff.1 hz
        exact hr.node k w hw

end Registry.Within

/-- A graph that keeps its function and has no new parameters. -/
theorem Graph.Within.of_eq {m : Module} {y z : Graph} (h : y.Within m)
    (hf : z.function = y.function) (hp : z.formals = y.formals) : z.Within m :=
  ⟨hf ▸ h.function, fun v hv => h.formals v (hp ▸ hv)⟩

theorem Graph.Within.fresh {m : Module} {f : FunctionId} (hf : f.Within m) :
    (Graph.fresh f).Within m := by
  refine ⟨hf, fun v hv => ?_⟩
  cases hv

namespace Work

/-- The work leaves all ids in range, if they are at its start; and then, if what is `given` is in
range, it ends in no fault about an id without an entry. -/
abbrev Resolves {α : Type} (given : Prop) (m : Module) (w : Work α) : Prop :=
  Maintains (fun x => given → x.Resolved) (fun r => r.Within m) w

variable {α β : Type} {given : Prop} {m : Module} {g : GraphId} {n : NodeId}

/-! ## Rules -/

theorem Maintains.graph_bind {k : Graph → Work β} (h : ∀ y, y.Within m → Resolves given m (k y)) :
    Resolves given m (Work.graph g >>= k) :=
  fun r hr => wp_graph (fun y hy => h y (hr.graph g y hy) r hr) fun _ => nofun

theorem Maintains.node_bind {k : Node → Work β} (h : ∀ x, x.key.Within m → Resolves given m (k x)) :
    Resolves given m (Work.node n >>= k) :=
  fun r hr => wp_node (fun x hx => h x (hr.node n x hx) r hr) fun _ => nofun

/-- A question that is answered, with `P`. -/
theorem Maintains.ask_bind {x : Except Missing α} {P : α → Prop} {k : α → Work β}
    (hx : ∃ a, x = .ok a ∧ P a) (h : ∀ a, P a → Resolves given m (k a)) :
    Resolves given m (Work.ask x >>= k) := by
  obtain ⟨a, rfl, ha⟩ := hx
  exact fun r hr => wp_ask (fun b hb => h b (by cases hb; exact ha) r hr) fun e he => by cases he

/-- A question about something given. An answer has `P` in any case. -/
theorem Maintains.ask_given_bind {x : Except Missing α} {P : α → Prop} {k : α → Work β}
    (hx : given → ∃ a, x = .ok a) (ha : ∀ a, x = .ok a → P a)
    (h : ∀ a, P a → Resolves given m (k a)) : Resolves given m (Work.ask x >>= k) := by
  refine fun r hr => wp_ask (fun a hok => h a (ha a hok) r hr) fun e he hgiven => ?_
  obtain ⟨a, hok⟩ := hx hgiven
  rw [hok] at he
  cases he

/-- A question about something given whose answer does not matter. -/
theorem resolves_ask_given {x : Except Missing α} (hx : given → ∃ a, x = .ok a) :
    Resolves given m (ask x) := by
  refine .ask fun e he hgiven => ?_
  obtain ⟨a, ha⟩ := hx hgiven
  rw [ha] at he
  cases he

/-- A question that is answered. -/
theorem resolves_ask {x : Except Missing α} (hx : ∃ a, x = .ok a) : Resolves given m (ask x) :=
  resolves_ask_given fun _ => hx

theorem resolves_modifyRegistry {f : Registry → Registry}
    (hf : ∀ r : Registry, r.Within m → (f r).Within m) : Resolves given m (modifyRegistry f) :=
  fun r hr => wp_last (wp_modifyRegistry (wp_pure (hf r hr)))

/-! ## Nodes -/

theorem resolves_putNode {x : Node} (hx : x.key.Within m) : Resolves given m (putNode n x) :=
  resolves_modifyRegistry fun _ hr => hr.setNode hx n.index

theorem resolves_updateNode {f : Node → Node} (hf : ∀ x, (f x).key = x.key) :
    Resolves given m (updateNode n f) :=
  .node_bind fun x hx => resolves_putNode (hf x ▸ hx)

theorem resolves_newNode {x : Node} (hx : x.key.Within m) : Resolves given m (newNode x) :=
  .bind .registry fun _ => .bind (resolves_modifyRegistry fun _ hr => hr.pushNode hx) fun _ =>
    .pure _

theorem resolves_addControl {a b : NodeId} : Resolves given m (addControl a b) :=
  .bind (resolves_updateNode fun _ => rfl) fun _ => resolves_updateNode fun _ => rfl

theorem resolves_addData {a b : NodeId} : Resolves given m (addData a b) :=
  .bind (resolves_updateNode fun _ => rfl) fun _ => resolves_updateNode fun _ => rfl

theorem resolves_ownedNode {key : NodeKey} {block? : Option BlockKey} (hkey : key.Within m) :
    Resolves given m (ownedNode g key block?) := by
  rw [ownedNode_eq]
  exact resolves_newNode hkey

theorem resolves_addPair {key : NodeKey} {c : NodeId} (hkey : key.Within m) :
    Resolves given m (addPair g key c) := by
  refine .bind (resolves_ownedNode hkey) fun _ => .bind (resolves_ownedNode hkey) fun _ => ?_
  exact .bind resolves_addControl fun _ => .bind resolves_addControl fun _ => .pure _

theorem resolves_owner : Resolves given m (owner n) :=
  .bind (.node nofun) fun _ => .require fun _ => nofun

/-! ## Graphs -/

theorem resolves_putGraph {y : Graph} (hy : y.Within m) : Resolves given m (putGraph g y) :=
  resolves_modifyRegistry fun _ hr => hr.setGraph hy g.index

theorem resolves_updateGraph {f : Graph → Graph} (hf : ∀ y, y.Within m → (f y).Within m) :
    Resolves given m (updateGraph g f) :=
  .graph_bind fun y hy => resolves_putGraph (hf y hy)

theorem resolves_newGraph {f : FunctionId} (hf : f.Within m) : Resolves given m (newGraph f) := by
  intro r hr
  unfold newGraph
  refine wp_registry ?_
  split
  · exact wp_throw_bind nofun
  · exact wp_modifyRegistry (wp_pure (hr.pushGraph (.fresh hf)))

theorem resolves_entry : Resolves given m (entry g) :=
  .bind (.graph nofun) fun _ => .require fun _ => nofun

theorem resolves_updateUnit {key : BlockKey} {f : BlockUnit → BlockUnit} :
    Resolves given m (updateUnit g key f) := by
  refine .graph_bind fun y hy => .bind (.require fun _ => nofun) fun _ => resolves_putGraph ?_
  exact hy.of_eq (by cases key <;> rfl) (by cases key <;> rfl)

theorem resolves_addUnitEdge {a b : BlockKey} {label : Nat} :
    Resolves given m (addUnitEdge g a b label) :=
  .bind resolves_updateUnit fun _ => resolves_updateUnit

theorem resolves_addUnitControl {a b : BlockKey} : Resolves given m (addUnitControl g a b) :=
  .bind resolves_updateUnit fun _ => resolves_updateUnit

theorem resolves_indexNode {key : NodeKey} : Resolves given m (indexNode g key n) := by
  refine .graph_bind fun y hy => .when (fun _ => .throw nofun) (resolves_putGraph ?_)
  exact hy.of_eq rfl rfl

theorem resolves_addNode {key : NodeKey} (hkey : key.Within m) : Resolves given m (addNode g key) :=
  .bind (resolves_ownedNode hkey) fun _ => .bind resolves_indexNode fun _ => .pure _

theorem resolves_addUnitNode {block : BlockKey} {key : NodeKey} (hkey : key.Within m) :
    Resolves given m (addUnitNode g block key) := by
  refine .bind (resolves_ownedNode hkey) fun _ => .bind resolves_indexNode fun _ => ?_
  exact .bind resolves_updateUnit fun _ => .pure _

/-! ## Teardowns -/

variable {destroy : GraphId → Work Unit}

theorem resolves_unrefWith (hd : ∀ g, Resolves given m (destroy g)) (mayDestroy : Bool) :
    Resolves given m (unrefWith destroy g mayDestroy) := by
  intro r hr
  unfold unrefWith
  refine wp_registry ?_
  cases hy : r.graph? g with
  | none =>
    -- what is gone already is let be
    exact wp_pure hr
  | some y =>
    refine Maintains.ite (fun _ => .ite (fun _ => .throw nofun) fun _ => .pure _) (fun _ => ?_) r hr
    refine .bind (resolves_putGraph ?_) fun _ => .bind (.report _) fun _ => ?_
    · exact (hr.graph g y hy).of_eq rfl rfl
    · exact .ite (fun _ => hd g) fun _ => .pure _

theorem resolves_retireNode (hd : ∀ g, Resolves given m (destroy g)) :
    Resolves given m (retireNode destroy g n) := by
  refine .bind (.node nofun) fun x => .bind (.forIn fun h _ _ => ?_) fun _ => ?_
  · refine .bind (resolves_modifyRegistry fun s hs => hs.reviseGraph fun y hy => ?_) fun _ => ?_
    · exact hy.of_eq rfl rfl
    · exact .bind (resolves_unrefWith hd _) fun _ => .pure _
  · refine .bind (.forIn fun a _ _ => ?_) fun _ => resolves_modifyRegistry fun _ hs => hs.freeNode
    exact .bind (resolves_modifyRegistry fun _ hs => hs.freeNode) fun _ => .pure _

theorem resolves_destroyWithin (depth : Nat) (g : GraphId) :
    Resolves given m (destroyWithin depth g) := by
  -- releasing what the graph calls may destroy that as well, with less depth
  induction depth generalizing g with
  | zero => exact .throw nofun
  | succ depth ih =>
    refine .graph_bind fun y hy => .ite (fun _ => .pure _) fun _ => ?_
    have hgoing : Graph.Within { y with phase := .destroying } m := hy.of_eq rfl rfl
    refine .bind (resolves_putGraph hgoing) fun _ => .bind (.report _) fun _ => ?_
    -- the links of the callers, the nodes, the parameters, and the graph
    refine .bind (.forIn fun c _ _ => ?_) fun _ => .bind (.forIn fun n _ _ => ?_) fun _ =>
      .bind (.forIn fun n _ _ => ?_) fun _ => resolves_modifyRegistry fun _ hs => hs.removeGraph _ g
    · exact .bind (resolves_modifyRegistry fun _ hs => hs.reviseNode fun _ => rfl) fun _ => .pure _
    · exact .bind (resolves_retireNode ih) fun _ => .pure _
    · exact .bind (resolves_modifyRegistry fun _ hs => hs.freeNode) fun _ => .pure _

theorem resolves_destroy : Resolves given m (Work.destroy g) :=
  .bind .registry fun _ => resolves_destroyWithin _ g

theorem resolves_unref (mayDestroy : Bool) : Resolves given m (unref g mayDestroy) :=
  resolves_unrefWith (fun _ => resolves_destroy) mayDestroy

end Work

end Sdg
