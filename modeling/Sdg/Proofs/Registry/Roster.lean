import Sdg.Proofs.Registry.View

/-!
# The roster of functions

Beside the graphs a registry keeps a map from functions to their graphs, and a lookup reads nothing
but this map. The two are written at different moments: a graph is entered when it is registered, in
the middle of whatever build asked for it, and its entry is struck out when it is removed, which is
the last thing that its teardown does. `Enrolled` says that they agree.

Main results:

* `Registry.lookup?_pushGraph`, `Registry.lookup?_removeGraph` — what is written to the map;
* `Registry.Enrolled.of_graphs` — nothing has to be written as long as all graphs stay;
* `Registry.Enrolled.pushGraph` — a graph may be registered for a function that has none.

What removing graphs leaves of the map is told with the rest of a teardown.
-/

namespace Sdg

namespace Registry

variable {r s : Registry} {g h : GraphId} {f k : FunctionId} {y z : Graph}

/-- Under each function its live graph is entered, and nothing else is. -/
def Enrolled (r : Registry) : Prop :=
  ∀ f g, r.lookup? f = some g ↔ ∃ y, r.graph? g = some y ∧ y.function = f

/-! ## What is written -/

@[simp] theorem lookup?_pushGraph (r : Registry) (y : Graph) (f : FunctionId) :
    (r.pushGraph y).lookup? f = if f = y.function then some r.nextGraph else r.lookup? f :=
  OrderedMap.get?_insert r.byFunction y.function f r.nextGraph

@[simp] theorem graph?_removeGraph (r : Registry) (f : FunctionId) (g h : GraphId) :
    (r.removeGraph f g).graph? h = if h = g then none else r.graph? h := by
  obtain ⟨i⟩ := g
  obtain ⟨j⟩ := h
  simp [removeGraph, graph?, Arena.get?_erase, eq_comm]

/-- The entry goes if it is the removed graph that it leads to. -/
theorem lookup?_removeGraph (r : Registry) (f : FunctionId) (g : GraphId) (k : FunctionId) :
    (r.removeGraph f g).lookup? k =
      if k = f ∧ r.lookup? f = some g then none else r.lookup? k := by
  unfold removeGraph lookup?
  by_cases h : r.byFunction.get? f = some g
  · simp [h, OrderedMap.get?_erase]
  · simp [h]

/-- What is written to neither the map nor the graphs is not seen by a lookup. -/
theorem lookup?_of_byFunction (h : s.byFunction = r.byFunction) : s.lookup? = r.lookup? := by
  funext f
  rw [lookup?, h, lookup?]

/-! ## Agreement -/

theorem Enrolled.empty : Registry.empty.Enrolled := fun _ _ =>
  iff_of_false nofun fun ⟨_, h, _⟩ => nomatch h

/-- A function that has a graph has no other. -/
theorem Enrolled.distinct (hr : r.Enrolled) (hy : r.graph? g = some y) (hz : r.graph? h = some z)
    (hf : y.function = z.function) : g = h := by
  have hg := (hr z.function g).2 ⟨y, hy, hf⟩
  have hh := (hr z.function h).2 ⟨z, hz, rfl⟩
  rw [hg] at hh
  exact Option.some.inj hh

/-- A graph is entered under one function, its own. -/
theorem Enrolled.function_eq (hr : r.Enrolled) (hf : r.lookup? f = some g)
    (hk : r.lookup? k = some g) : f = k := by
  obtain ⟨y, hy, hyf⟩ := (hr f g).1 hf
  obtain ⟨z, hz, hzk⟩ := (hr k g).1 hk
  rw [hy] at hz
  cases hz
  exact hyf.symm.trans hzk

/-- A function that is not entered has no graph. -/
theorem Enrolled.lookup?_eq_none_iff (hr : r.Enrolled) :
    r.lookup? f = none ↔ ∀ g y, r.graph? g = some y → y.function ≠ f := by
  rw [Option.eq_none_iff_forall_ne_some]
  constructor
  · intro hn g y hy hf
    exact hn g ((hr f g).2 ⟨y, hy, hf⟩)
  · intro hn g hg
    obtain ⟨y, hy, hf⟩ := (hr f g).1 hg
    exact hn g y hy hf

/-- Where the same functions have the same graphs, lookups lead to the same. -/
theorem Enrolled.lookup?_eq (hr : r.Enrolled) (hs : s.Enrolled)
    (hg : ∀ g, (s.graph? g).map Graph.function = (r.graph? g).map Graph.function) :
    s.lookup? = r.lookup? := by
  funext f
  refine Option.ext fun g => ?_
  rw [hs, hr, ← Option.map_eq_some_iff, ← Option.map_eq_some_iff, hg]

/-- Nothing is written to the map as long as all graphs stay and keep their functions. -/
theorem Enrolled.of_graphs (hr : r.Enrolled) (hf : s.lookup? = r.lookup?)
    (hg : ∀ g, (s.graph? g).map Graph.function = (r.graph? g).map Graph.function) :
    s.Enrolled := by
  intro f g
  rw [hf, hr, ← Option.map_eq_some_iff, ← Option.map_eq_some_iff, hg]

theorem Enrolled.reviseGraph {u : Graph → Graph} (hr : r.Enrolled)
    (hu : ∀ y, (u y).function = y.function) : (r.reviseGraph g u).Enrolled := by
  refine hr.of_graphs (lookup?_of_byFunction (byFunction_reviseGraph r g u)) fun h => ?_
  rw [graph?_reviseGraph]
  split
  · cases r.graph? h <;> simp [hu]
  · rfl

/-- A graph that is registered for a function without one is entered there. -/
theorem Enrolled.pushGraph (hr : r.Enrolled) (hf : r.lookup? y.function = none) :
    (r.pushGraph y).Enrolled := by
  have hnone := hr.lookup?_eq_none_iff.1 hf
  intro k g
  rw [lookup?_pushGraph, graph?_pushGraph]
  -- a graph for the function can only be the new one, for another function it is an old one
  by_cases hk : k = y.function <;> by_cases hg : g = r.nextGraph
  · rw [if_pos hk, if_pos hg, hg, hk]
    exact iff_of_true rfl ⟨y, rfl, rfl⟩
  · rw [if_pos hk, if_neg hg]
    refine iff_of_false (fun h => hg (Option.some.inj h).symm) fun ⟨z, hz, hzk⟩ => ?_
    exact hnone g z hz (hzk.trans hk)
  · rw [if_neg hk, if_pos hg, hr, hg, graph?_nextGraph]
    refine iff_of_false (fun ⟨_, h, _⟩ => nomatch h) fun ⟨z, hz, hzk⟩ => ?_
    cases hz
    exact hk hzk.symm
  · rw [if_neg hk, if_neg hg, hr]

end Registry

end Sdg
