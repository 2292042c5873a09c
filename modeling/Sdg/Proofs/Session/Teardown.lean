import Sdg.Proofs.Session.Steady

/-!
# What a step tears down

The steps that give back references and tear graphs down, between the other steps of a session. They
end without fault, and what they take is known from the registry before the step.

Main result:

* `Session.Reachable.teardown_exact` — the exact effect of tearing a graph down and of giving one
  back.
-/

namespace Sdg

open Registry

namespace Session

variable {m : Module} {s : Session} {g : GraphId} {y : Graph}

/-- A step that tears a graph down is taken, and takes the least set of graphs that falls. -/
theorem step_destroy (hr : s.registry.Orderly m) (hy : s.registry.graph? g = some y) :
    ∃ D t, (s.step (.destroy g)).2 = .ok (.nothing, ⟨s.setup, t⟩) ∧
      IsLeast {S | s.registry.Falls g S} D ∧ s.registry.Remains D t := by
  have hw : Work.wp Fault.Never (s.work (.destroy g)) (fun o t => o = .nothing ∧
      ∃ D, IsLeast {S | s.registry.Falls g S} D ∧ s.registry.Remains D t) s.registry := by
    apply Work.wp_bind (Work.destroy_spec hr hy)
    intro _ t ht
    exact Work.wp_pure ⟨rfl, ht⟩
  obtain ⟨o, t, hstep, rfl, D, hD, hrem⟩ := exists_step hw
  exact ⟨D, t, hstep, hD, hrem⟩

/-- A step that gives the last reference back is taken, and takes the same. -/
theorem step_release_last (hr : s.registry.Orderly m) (hy : s.registry.graph? g = some y)
    (h1 : y.refcount = 1) : ∃ D t, (s.step (.release g)).2 = .ok (.nothing, ⟨s.setup, t⟩) ∧
      IsLeast {S | s.registry.Falls g S} D ∧ s.registry.Remains D t := by
  have hw : Work.wp Fault.Never (s.work (.release g)) (fun o t => o = .nothing ∧
      ∃ D, IsLeast {S | s.registry.Falls g S} D ∧ s.registry.Remains D t) s.registry := by
    apply Work.wp_bind (Work.release_spec hr hy (by omega))
    intro _ t ht
    rw [if_pos h1] at ht
    exact Work.wp_pure ⟨rfl, ht⟩
  obtain ⟨o, t, hstep, rfl, D, hD, hrem⟩ := exists_step hw
  exact ⟨D, t, hstep, hD, hrem⟩

/-- A step that gives another reference back does nothing else. -/
theorem step_release (hr : s.registry.Orderly m) (hy : s.registry.graph? g = some y)
    (h1 : 1 < y.refcount) : (s.step (.release g)).2 = .ok (.nothing,
      ⟨s.setup, s.registry.reviseGraph g fun y => { y with refcount := y.refcount - 1 }⟩) := by
  have hw : Work.wp Fault.Never (s.work (.release g)) (fun o t => o = .nothing ∧
      t = s.registry.reviseGraph g fun y => { y with refcount := y.refcount - 1 }) s.registry := by
    apply Work.wp_bind (Work.release_spec hr hy (by omega))
    intro _ t ht
    rw [if_neg (by omega)] at ht
    exact Work.wp_pure ⟨rfl, ht⟩
  obtain ⟨o, t, hstep, rfl, rfl⟩ := exists_step hw
  exact hstep

/-- Giving back a reference to a graph that is gone does nothing. -/
theorem step_release_of_none (hn : s.registry.graph? g = none) :
    (s.step (.release g)).2 = .ok (.nothing, s) := by
  have hw : Work.wp Fault.Never (s.work (.release g)) (fun o t => o = .nothing ∧ t = s.registry)
      s.registry := by
    apply Work.wp_bind (Work.release_of_none hn)
    intro _ t ht
    exact Work.wp_pure ⟨rfl, ht⟩
  obtain ⟨o, t, hstep, rfl, rfl⟩ := exists_step hw
  exact hstep

/-- **Teardown.** After every run, tearing a live graph down and giving back the last reference to
it end without fault, and both take exactly the least set `D` of graphs that falls with it: they
free the nodes of these graphs and leave everything else but for edges, links and references to what
is gone. Giving back any other reference takes that reference alone, and of a graph that is gone
nothing. -/
theorem Reachable.teardown_exact (hs : Session.Reachable m s) (g : GraphId) :
    (∀ y, s.registry.graph? g = some y → ∃ D, IsLeast {S | s.registry.Falls g S} D ∧
      (∃ t, (s.step (.destroy g)).2 = .ok (.nothing, ⟨s.setup, t⟩) ∧ s.registry.Remains D t) ∧
      (y.refcount = 1 → ∃ t, (s.step (.release g)).2 = .ok (.nothing, ⟨s.setup, t⟩) ∧
        s.registry.Remains D t) ∧
      (1 < y.refcount → (s.step (.release g)).2 = .ok (.nothing,
        ⟨s.setup, s.registry.reviseGraph g fun y => { y with refcount := y.refcount - 1 }⟩))) ∧
    (s.registry.graph? g = none → (s.step (.release g)).2 = .ok (.nothing, s)) := by
  obtain ⟨_, hr⟩ := hs.steady
  constructor
  · intro y hy
    obtain ⟨D, t, hstep, hD, hrem⟩ := step_destroy hr.orderly hy
    refine ⟨D, hD, ⟨t, hstep, hrem⟩, ?_, ?_⟩
    · intro h1
      obtain ⟨D', t', hstep', hD', hrem'⟩ := step_release_last hr.orderly hy h1
      -- there is but one least set
      have hsame : D' = D := hD'.unique hD
      subst hsame
      exact ⟨t', hstep', hrem'⟩
    · intro h1
      exact step_release hr.orderly hy h1
  · intro hn
    exact step_release_of_none hn

/-- Giving back the one reference to `main` tears it down with all that falls with it. -/
theorem Reachable.teardown_of_ticks : ∃ o s D t,
    ((Session.start .ticks).step (.root none)).2 = .ok (o, s) ∧
      IsLeast {S | s.registry.Falls ⟨0⟩ S} D ∧
      (s.step (.release ⟨0⟩)).2 = .ok (.nothing, ⟨s.setup, t⟩) ∧ s.registry.Remains D t := by
  have hcount : ((Session.start .ticks).step (.root none)).2.toOption.any (fun p =>
      (p.2.registry.graph? ⟨0⟩).any fun y => decide (y.refcount = 1)) = true := by decide +kernel
  obtain ⟨⟨o, s⟩, hstep, htest⟩ := exists_ok_of_any hcount
  obtain ⟨y, hy, h1⟩ := (Option.any_eq_true _ _).1 htest
  have hs : Session.Reachable .ticks s := .step .start hstep
  obtain ⟨D, hD, _, hlast, _⟩ := (hs.teardown_exact ⟨0⟩).1 y hy
  obtain ⟨t, hrelease, hrem⟩ := hlast (of_decide_eq_true h1)
  exact ⟨o, s, D, t, hstep, hD, hrelease, hrem⟩

end Session

end Sdg
