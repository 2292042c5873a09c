import Sdg.Proofs.Session.Steady

/-!
# Logs

A registry does not tell how it came to be what it is. Where a property of a session is about what
was asked of it and what it answered, it is stated of a log: the steps that were taken, with their
answers and with the session after each.

Main results:

* `Session.reachable_iff_exists_run` — a session is reachable if some log leads to it;
* `Registry.Effect.renames` — a graph that a step makes gets a name that no graph had before.
-/

namespace Sdg

/-- A step that was taken: what it answered, and the session after it. -/
structure Entry where
  step : Step
  outcome : Outcome
  after : Session

/-- The steps in the log, the latest first, lead from the session `s` to another one. -/
inductive Session.Run (s : Session) : List Entry → Session → Prop where
  | nil : Session.Run s [] s
  | cons {log : List Entry} {t u : Session} {a : Step} {o : Outcome} : Session.Run s log t →
      (t.step a).2 = .ok (o, u) → Session.Run s (⟨a, o, u⟩ :: log) u

namespace Session

variable {m : Module} {s : Session}

theorem Run.reachable {log : List Entry} (h : Run (.start m) log s) : Reachable m s := by
  induction h with
  | nil => exact .start
  | cons _ hstep ih => exact .step ih hstep

/-- A session is reachable if some log leads to it. -/
theorem reachable_iff_exists_run : Reachable m s ↔ ∃ log, Run (.start m) log s := by
  constructor
  · intro h
    induction h with
    | start => exact ⟨[], .nil⟩
    | step _ hstep ih =>
      obtain ⟨log, hrun⟩ := ih
      exact ⟨_, .cons hrun hstep⟩
  · intro h
    obtain ⟨log, hrun⟩ := h
    exact hrun.reachable

end Session

/-! ## Names of graphs -/

namespace Registry

variable {e : Setup} {r t : Registry} {a : Step} {o : Outcome} {g : GraphId} {y : Graph}

/-- What a step does to the names of graphs: it goes on where the last one stopped, and a graph that
is new has one of the new names. -/
structure Renames (r t : Registry) : Prop where
  next : r.graphs.next ≤ t.graphs.next
  fresh : ∀ g y, r.graph? g = none → t.graph? g = some y → r.graphs.next ≤ g.index

theorem Renames.refl (r : Registry) : r.Renames r := by
  refine ⟨Nat.le_refl _, fun g y hn hy => ?_⟩
  rw [hn] at hy
  cases hy

theorem Numbers.renames (h : r.Numbers t) : r.Renames t where
  next := h.next
  fresh g y hn hy := by
    rcases (h.live g).1 ⟨y, hy⟩ with ⟨_, hz⟩ | ⟨hle, _⟩
    · rw [hn] at hz
      cases hz
    · exact hle

theorem Remains.renames {D : Set GraphId} (h : r.Remains D t) : r.Renames t where
  next := (congrArg GraphId.index h.nextGraph).ge
  fresh g y hn hy := by
    obtain ⟨_, _, hz, _⟩ := h.graph?_iff.1 hy
    rw [hn] at hz
    cases hz

/-- **Names.** A graph that a step makes gets a name that no graph had before. -/
theorem Effect.renames (h : r.Effect e a o t) : r.Renames t := by
  cases h with
  | held h =>
    cases h with
    | held _ hev _ => exact (hev.numbers.trans (.reviseGraph _ _ _)).renames
  | refused h =>
    cases h with
    | @refused _ s _ hev _ hgraph _ _ hnext =>
      have hs := hev.numbers.renames
      refine ⟨?_, fun g y hn hy => hs.fresh g y hn (hgraph ▸ hy)⟩
      have := hs.next
      omega
  | given h _ => exact h.numbers.renames
  | retained _ => exact (Numbers.reviseGraph _ _ _).renames
  | released _ _ => exact (Numbers.reviseGraph _ _ _).renames
  | dropped _ _ _ hrem => exact hrem.renames
  | destroyed _ hrem => exact hrem.renames
  | ignored _ => exact .refl r
  | setSettings _ => exact .refl r
  | setPointsTo _ => exact .refl r
  | setScopes _ => exact .refl r

end Registry

end Sdg
