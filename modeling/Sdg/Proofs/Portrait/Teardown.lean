import Sdg.Build.Teardown
import Sdg.Proofs.Portrait.Calm
import Sdg.Proofs.Registry.Live
import Sdg.Proofs.Teardown.Freeing

/-!
# Teardowns leave layouts alone

A teardown removes graphs and frees nodes. No graph that is left is in another layout, whatever
calls of it were unlinked.

Main result:

* `Work.calm_destroy`, `Work.calm_unref` — giving back a reference is calm, whether or not it is the
  last one.
-/

namespace Sdg

namespace Registry

variable {r r₀ : Registry} {n : NodeId} {g : GraphId}

/-- A graph that is removed takes its layout with it. -/
theorem Calm.removeGraph (r : Registry) (f : FunctionId) (g : GraphId) :
    r.Calm (r.removeGraph f g) := by
  refine ⟨.single (.remove f g), fun h z hz => ⟨z, ?_, rfl⟩, rfl⟩
  rw [graph?_removeGraph] at hz
  split at hz
  · cases hz
  · exact hz

/-- A node that is freed leaves its neighbours where they are. -/
theorem Calm.freeNode (r : Registry) (n : NodeId) : r.Calm (r.freeNode n) := by
  refine ⟨.single (.keep (by simp) (by simp) (fun k x' hx' => ?_) fun g => by simp),
    fun g z hz => ⟨z, by simpa using hz, rfl⟩, by simp⟩
  cases hn : r.node? n with
  | none =>
    rw [freeNode_of_none hn] at hx'
    exact ⟨x', hx', .refl x'⟩
  | some x =>
    rw [node?_freeNode hn] at hx'
    split at hx'
    · cases hx'
    · obtain ⟨y, hy, rfl⟩ := Option.map_eq_some_iff.1 hx'
      exact ⟨y, hy, rfl, rfl, rfl⟩

end Registry

namespace Work

open Registry

variable {r₀ : Registry} {n : NodeId} {g : GraphId}

theorem calm_modifyRegistry {u : Registry → Registry} (hu : ∀ r : Registry, r.Calm (u r)) :
    Maintains Fault.Any r₀.Calm (modifyRegistry u) := fun r hr =>
  wp_last (wp_modifyRegistry (wp_pure (hr.trans (hu r))))

/-- What was read of a graph is written back with another phase, or another count. -/
theorem wp_calm_putGraph {u : Graph → Graph} {r : Registry} {y : Graph} {α : Type}
    {k : Unit → Work α} (hu : ∀ y, (u y).layout = y.layout) (hr : r₀.Calm r)
    (hy : r.graph? g = some y) (hk : Maintains Fault.Any r₀.Calm (k ())) :
    wp Fault.Any (putGraph g (u y) >>= k) (fun _ s => r₀.Calm s) r := by
  unfold putGraph
  refine wp_modifyRegistry ?_
  rw [reviseGraph_eq hy u]
  exact hk _ (hr.trans (.reviseGraph hu))

section

variable {destroy : GraphId → Work Unit} (hd : ∀ g, Maintains Fault.Any r₀.Calm (destroy g))

include hd

theorem calm_unrefWith {mayDestroy : Bool} :
    Maintains Fault.Any r₀.Calm (unrefWith destroy g mayDestroy) := by
  intro r hr
  unfold unrefWith
  refine wp_registry ?_
  cases hy : r.graph? g with
  | none => exact wp_pure hr
  | some y =>
    dsimp only
    split
    · exact Maintains.ite (fun _ => .throw trivial) (fun _ => .pure _) r hr
    · refine wp_calm_putGraph (u := fun y => { y with refcount := y.refcount - 1 }) (fun _ => rfl)
        hr hy ?_
      exact .bind (.report _) fun _ => .ite (fun _ => hd g) fun _ => .pure _

theorem calm_retireNode : Maintains Fault.Any r₀.Calm (retireNode destroy g n) := by
  refine .bind (.node trivial) fun x => .bind (.forIn fun h _ _ => ?_) fun _ =>
    .bind (.forIn fun _ _ _ => .bind (calm_modifyRegistry fun r => .freeNode r _) fun _ => .pure _)
      fun _ => calm_modifyRegistry fun r => .freeNode r n
  exact .bind (calm_modifyRegistry fun r => .reviseGraph fun _ => rfl) fun _ =>
    .bind (calm_unrefWith hd) fun _ => .pure _

end

theorem calm_destroyWithin (depth : Nat) :
    ∀ g, Maintains Fault.Any r₀.Calm (destroyWithin depth g) := by
  induction depth with
  | zero => exact fun _ => .throw trivial
  | succ depth ih =>
    intro g r hr
    refine wp_graph (fun y hy => ?_) fun _ => trivial
    split
    · exact wp_pure hr
    refine wp_calm_putGraph (u := fun y => { y with phase := .destroying }) (fun _ => rfl) hr hy ?_
    refine .bind (.report _) fun _ => .bind (.forIn fun _ _ _ => ?_) fun _ =>
      .bind (.forIn fun _ _ _ => .bind (calm_retireNode ih) fun _ => .pure _) fun _ =>
        .bind (.forIn fun _ _ _ => .bind (calm_modifyRegistry fun r => .freeNode r _) fun _ =>
          .pure _) fun _ => calm_modifyRegistry fun r => .removeGraph r _ g
    exact .bind (calm_modifyRegistry fun r => .reviseNode fun _ => ⟨rfl, rfl, rfl⟩) fun _ => .pure _

/-- A graph that was not being torn down is gone after its teardown. -/
theorem destroyWithin_gone {depth : Nat} {r : Registry} {y : Graph} (hy : r.graph? g = some y)
    (hp : y.phase ≠ .destroying) :
    wp Fault.Any (destroyWithin (depth + 1) g) (fun _ s => s.graph? g = none) r := by
  have hany : ∀ {α : Type} {w : Work α} (s : Registry), Maintains Fault.Any s.Calm w →
      wp Fault.Any w (fun _ _ => True) s := fun s hw =>
    wp_mono (hw s (.refl s)) fun _ _ _ => trivial
  refine wp_graph_live hy ?_
  rw [if_neg hp]
  -- whatever happens before, the graph itself is removed last
  refine wp_bind (P := fun _ _ => True) (wp_last (wp_modifyRegistry (wp_pure trivial))) ?_
  refine fun _ s _ => wp_report (wp_bind (hany s (.forIn fun _ _ _ => ?_)) fun _ s₁ _ => ?_)
  · exact .bind (calm_modifyRegistry fun r => .reviseNode fun _ => ⟨rfl, rfl, rfl⟩) fun _ => .pure _
  refine wp_bind (hany s₁ (.forIn fun _ _ _ => ?_)) fun _ s₂ _ => ?_
  · exact .bind (calm_retireNode (calm_destroyWithin depth)) fun _ => .pure _
  refine wp_bind (hany s₂ (.forIn fun _ _ _ => ?_)) fun _ s₃ _ => ?_
  · exact .bind (calm_modifyRegistry fun r => .freeNode r _) fun _ => .pure _
  exact wp_last (wp_modifyRegistry (wp_pure ((graph?_removeGraph s₃ _ g g).trans (if_pos rfl))))

theorem calm_destroy : Maintains Fault.Any r₀.Calm (destroy g) :=
  .bind .registry fun _ => calm_destroyWithin _ g

/-- A graph that is torn down was there. -/
theorem destroy_calm {r : Registry} :
    wp Fault.Any (destroy g) (fun _ s => (∃ y, r.graph? g = some y) ∧ r.Calm s) r := by
  cases hy : r.graph? g with
  | some y => exact wp_mono (calm_destroy r (.refl r)) fun _ _ hs => ⟨⟨y, rfl⟩, hs⟩
  | none =>
    unfold destroy destroyWithin
    refine wp_registry (wp_graph (fun y hy' => ?_) fun _ => trivial)
    rw [hy] at hy'
    cases hy'

theorem calm_retain : Maintains Fault.Any r₀.Calm (retain g) := by
  unfold retain
  exact calm_updateGraph fun _ => rfl

theorem destroy_gone {r : Registry} {y : Graph} (hy : r.graph? g = some y)
    (hp : y.phase ≠ .destroying) : wp Fault.Any (destroy g) (fun _ s => s.graph? g = none) r :=
  wp_registry (destroyWithin_gone hy hp)

/-- **References.** Giving back a reference is calm, whether or not it is the last one. -/
theorem calm_unref {mayDestroy : Bool} : Maintains Fault.Any r₀.Calm (unref g mayDestroy) :=
  calm_unrefWith fun _ => calm_destroy

end Work

end Sdg
