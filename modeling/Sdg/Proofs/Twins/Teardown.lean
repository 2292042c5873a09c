import Sdg.Build.Teardown
import Sdg.Proofs.Twins.Pieces

/-!
# Teardowns in registries that are alike

References are given back alike, and what is torn down in one registry is torn down in the other
one, node by node.

Main results:

* `Alike.destroy` — graphs are torn down alike;
* `Alike.unref` — references are given back alike.
-/

namespace Sdg

namespace Work

namespace Alike

variable {ρ : Likeness} {g g' h h' : GraphId} {n n' : NodeId} {tear tear' : GraphId → Work Unit}

/-- A reference is given back alike if graphs are torn down alike. -/
theorem unrefWith (hd : ∀ g g', ρ.Graph g g' → Alike ρ Eq (tear g) (tear' g'))
    (hg : ρ.Graph g g') (mayDestroy : Bool) :
    Alike ρ Eq (unrefWith tear g mayDestroy) (Work.unrefWith tear' g' mayDestroy) := by
  refine bind registry fun r s hrs => ?_
  have hy := ρ.graph hrs hg
  generalize r.graph? g = o at hy
  generalize s.graph? g' = o' at hy
  cases hy with
  | none => exact pure rfl
  | @some y y' hy =>
    show Alike ρ Eq (if y.refcount = 0 then _ else _) (if y'.refcount = 0 then _ else _)
    rw [hy.refcount, hy.phase]
    refine ite .rfl (ite .rfl (throw (.unheld hg)) (pure rfl)) ?_
    refine seq (putGraph hg { hy with phase := rfl, refcount := rfl }) (seq (report _ _) ?_)
    exact ite .rfl (hd g g' hg) (pure rfl)

theorem freeNode (hn : ρ.Node n n') :
    Alike ρ Eq (Work.modifyRegistry (·.freeNode n)) (Work.modifyRegistry (·.freeNode n')) :=
  modifyRegistry fun _ _ hrs => ρ.freeNode hrs hn

theorem retireNode (hd : ∀ g g', ρ.Graph g g' → Alike ρ Eq (tear g) (tear' g'))
    (hg : ρ.Graph g g') (hn : ρ.Node n n') :
    Alike ρ Eq (retireNode tear g n) (Work.retireNode tear' g' n') := by
  refine bind (node hn) fun x x' hx => ?_
  refine bind (forIn hx.callees fun h h' _ hh => ?_) fun _ _ _ => ?_
  · refine seq (modifyRegistry fun r s hrs => ρ.reviseGraph hrs hh fun y y' hy => ?_) ?_
    · exact { hy with callers := hy.callers.erase ρ.biUnique_node hn }
    · -- a link of the graph to itself is one in both
      have hself : decide (h ≠ g) = decide (h' ≠ g') :=
        decide_eq_decide.2 (not_congr (Relator.rel_eq ρ.biUnique_graph hh hg))
      rw [hself]
      exact seq (unrefWith hd hh _) (pure rfl)
  · refine bind (forIn (Parameters.Like.getD hx.actuals?).nodes fun a a' _ ha => ?_)
      fun _ _ _ => freeNode hn
    exact seq (freeNode ha) (pure rfl)

/-- The bounds of the rounds need not be the same. -/
theorem destroyWithin (depth : Nat) : ∀ (depth' : Nat) (g g' : GraphId), ρ.Graph g g' →
    Alike ρ Eq (destroyWithin depth g) (Work.destroyWithin depth' g') := by
  induction depth with
  | zero => exact fun _ _ _ _ => cutLeft
  | succ depth ih =>
    intro depth' g g' hg
    cases depth' with
    | zero => exact cutRight
    | succ depth' =>
      refine bind (graph hg) fun y y' hy => ite (by rw [hy.phase]) (pure rfl) ?_
      refine seq (putGraph hg { hy with phase := rfl }) (seq (report _ _) ?_)
      refine bind (forIn hy.callers fun c c' _ hc => ?_) fun _ _ _ => ?_
      · refine seq (modifyRegistry fun r s hrs => ρ.reviseNode hrs hc fun x x' hx => ?_) (pure rfl)
        exact { hx with callees := hx.callees.erase ρ.biUnique_graph hg }
      refine bind (forIn hy.index.values fun n n' _ hn => ?_) fun _ _ _ => ?_
      · exact seq (retireNode (ih depth') hg hn) (pure rfl)
      refine bind (forIn hy.formals.nodes fun n n' _ hn => ?_) fun _ _ _ => ?_
      · exact seq (freeNode hn) (pure rfl)
      rw [hy.function]
      exact modifyRegistry fun r s hrs => ρ.removeGraph _ hrs hg

theorem destroy (hg : ρ.Graph g g') : Alike ρ Eq (destroy g) (Work.destroy g') :=
  bind registry fun _ _ _ => destroyWithin _ _ g g' hg

theorem unref (hg : ρ.Graph g g') (mayDestroy : Bool) :
    Alike ρ Eq (unref g mayDestroy) (Work.unref g' mayDestroy) :=
  unrefWith (fun _ _ => destroy) hg mayDestroy

theorem retain (hg : ρ.Graph g g') : Alike ρ Eq (retain g) (Work.retain g') :=
  updateGraph hg fun _ _ hy => { hy with refcount := congrArg (· + 1) hy.refcount }

end Alike

end Work

end Sdg
