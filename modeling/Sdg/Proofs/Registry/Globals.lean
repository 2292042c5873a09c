import Sdg.Build.Construction
import Sdg.Proofs.Registry.Ages
import Sdg.Proofs.Registry.Pieces

/-!
# Shared nodes

The pool is filled before the first graph is built, and from then on it has a node for each global,
so that filling it again changes nothing.

Main results:

* `Work.addGlobals_eq` — filling the pool is a function of the registry;
* `Registry.withGlobals_eq_self` — a pool that is filled stays as it is.
-/

namespace Sdg

namespace Registry

variable {r : Registry} {v : ValueId} {vs : List ValueId}

/-- The registry with a shared node for the global `v`. -/
def share (r : Registry) (v : ValueId) : Registry :=
  if r.pool.contains v then r else r.giveShared v

/-- The registry with a shared node for each of the globals. -/
def withGlobals (r : Registry) (vs : List ValueId) : Registry := vs.foldl share r

theorem share_of_contains (h : r.pool.contains v = true) : r.share v = r := if_pos h

/-- What one shared node leaves alone is left alone by all of them. -/
theorem withGlobals_unchanged {α : Type} {p : Registry → α} (hp : ∀ r v, p (giveShared r v) = p r)
    (r : Registry) (vs : List ValueId) : p (r.withGlobals vs) = p r := by
  induction vs generalizing r with
  | nil => rfl
  | cons v vs ih =>
    refine (ih _).trans ?_
    unfold share
    split
    · rfl
    · exact hp r v

@[simp] theorem graphs_withGlobals (r : Registry) (vs : List ValueId) :
    (r.withGlobals vs).graphs = r.graphs := withGlobals_unchanged (fun _ _ => rfl) r vs

@[simp] theorem lookup?_withGlobals (r : Registry) (vs : List ValueId) :
    (r.withGlobals vs).lookup? = r.lookup? := withGlobals_unchanged (fun _ _ => rfl) r vs

@[simp] theorem gathered_withGlobals (r : Registry) (vs : List ValueId) :
    (r.withGlobals vs).gathered = r.gathered := withGlobals_unchanged (fun _ _ => rfl) r vs

theorem ages_withGlobals (r : Registry) (vs : List ValueId) : r.Ages (r.withGlobals vs) := by
  induction vs generalizing r with
  | nil => exact .refl
  | cons v vs ih =>
    refine .trans ?_ (ih _)
    unfold share
    split
    · exact .refl
    · exact (Ages.pushNode _).trans (Ages.of_views rfl rfl)

/-- The pool loses nothing. -/
theorem contains_pool_withGlobals (h : r.pool.contains v = true) (vs : List ValueId) :
    (r.withGlobals vs).pool.contains v = true := by
  induction vs generalizing r with
  | nil => exact h
  | cons w vs ih =>
    refine ih ?_
    unfold share
    split
    · exact h
    · obtain ⟨n, hn⟩ := OrderedMap.contains_eq_true_iff.1 h
      refine OrderedMap.contains_eq_true_iff.2 ?_
      show ∃ k, (r.pool.insert w r.nextNode).get? v = some k
      rw [OrderedMap.get?_insert]
      split
      · exact ⟨_, rfl⟩
      · exact ⟨n, hn⟩

/-- Each of the globals gets its node. -/
theorem contains_withGlobals (hv : v ∈ vs) : (r.withGlobals vs).pool.contains v = true := by
  induction vs generalizing r with
  | nil => cases hv
  | cons w vs ih =>
    rcases List.mem_cons.1 hv with rfl | hv
    · refine contains_pool_withGlobals ?_ vs
      unfold share
      split
      · assumption
      · refine OrderedMap.contains_eq_true_iff.2 ⟨r.nextNode, ?_⟩
        show (r.pool.insert v r.nextNode).get? v = _
        rw [OrderedMap.get?_insert, if_pos rfl]
    · exact ih hv

/-- A pool that is filled stays as it is. -/
theorem withGlobals_eq_self (h : ∀ v ∈ vs, r.pool.contains v = true) : r.withGlobals vs = r := by
  induction vs with
  | nil => rfl
  | cons v vs ih =>
    have hv := h v List.mem_cons_self
    show (r.share v).withGlobals vs = r
    rw [share_of_contains hv]
    exact ih fun w hw => h w (List.mem_cons_of_mem _ hw)

end Registry

namespace Work

variable {r : Registry} {bad : Fault → Prop}

/-- Filling the pool. -/
theorem addGlobals_eq (m : Module) :
    wp bad (addGlobals m) (fun _ s => s = r.withGlobals m.globals) r := by
  unfold addGlobals
  refine wp_bind (wp_forIn (fun done _ s => s = r.withGlobals done) rfl ?_) fun _ _ hs => wp_pure hs
  intro done v rest _ s _ hs
  have hnext : r.withGlobals (done ++ [v]) = s.share v := by
    rw [hs, Registry.withGlobals, List.foldl_append]
    rfl
  refine wp_registry ?_
  rw [hnext, Registry.share]
  cases hv : s.pool.contains v with
  | true => exact wp_pure ⟨_, rfl, rfl⟩
  | false => exact wp_newNode (wp_modifyRegistry (wp_pure ⟨_, rfl, rfl⟩))

end Work

end Sdg
