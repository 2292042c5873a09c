import Sdg.Proofs.Session.Log

/-!
# Who holds a graph

A graph is held by the calls that are linked to it, and from outside: a root and a `retain` take a
reference, a `release` gives one back. Its count of references is changed in many places, when it is
made, when a call is linked to it, when its build is over and when a caller is torn down. What is
beyond the calls, though, is changed by the steps alone, and only by those that take a reference to
this graph or give one back.

Main results:

* `Registry.Effect.lent_eq` — what a step does to the references that no call holds;
* `Session.Run.references` — after every run the references to a graph are those of its callers and
  those that steps hold.
-/

namespace Sdg

open Registry

open scoped Classical

/-! ## What steps hold -/

/-- Whether a step takes a reference to the graph `g`: a root that is answered by it, or a
`retain`. -/
def Step.takes (g : GraphId) : Step → Outcome → Bool
  | .root _, .graph h => h = g
  | .retain h, _ => h = g
  | _, _ => false

/-- Whether a step gives a reference to the graph `g` back. -/
def Step.givesBack (g : GraphId) : Step → Bool
  | .release h => h = g
  | _ => false

/-- The references to the graph `g` that steps took, less those that they gave back. The steps count
from the one on that made the graph: as long as no graph has the name, there is nothing to take or
to give back. -/
def holds (g : GraphId) (log : List Entry) : Int :=
  let since := log.filter fun x => (x.after.registry.graph? g).isSome
  since.countP (fun x => x.step.takes g x.outcome) - since.countP (·.step.givesBack g)

section

variable {g : GraphId} {x : Entry} {log : List Entry}

theorem holds_cons_of_some {y : Graph} (hy : x.after.registry.graph? g = some y) :
    holds g (x :: log) = holds g log + (if x.step.takes g x.outcome then 1 else 0) -
      if x.step.givesBack g then 1 else 0 := by
  have hlive : (x.after.registry.graph? g).isSome = true := by rw [hy]; rfl
  simp only [holds, List.filter_cons, hlive, if_true, List.countP_cons]
  split <;> split <;> push_cast <;> omega

theorem holds_cons_of_none (hn : x.after.registry.graph? g = none) :
    holds g (x :: log) = holds g log := by
  have hdead : (x.after.registry.graph? g).isSome = false := by rw [hn]; rfl
  simp [holds, hdead]

end

/-! ## What no call holds -/

/-- The references to the graph `g` that no call holds. A graph that is not live has none. -/
def Registry.lent (r : Registry) (g : GraphId) : Int :=
  match r.graph? g with
  | some y => y.refcount - y.callers.size
  | none => 0

variable {e : Setup} {r s t : Registry} {g h : GraphId} {y : Graph}

theorem Registry.lent_of_some (hy : r.graph? g = some y) :
    r.lent g = y.refcount - y.callers.size := by
  rw [lent, hy]

theorem Registry.lent_of_none (hn : r.graph? g = none) : r.lent g = 0 := by
  rw [lent, hn]

/-- Building takes references for calls alone. -/
theorem Evolves.lent_eq {F : Set FunctionId} (h : Evolves e r s F) (g : GraphId) :
    s.lent g = r.lent g := by
  cases hz : r.graph? g with
  | some z =>
    obtain ⟨y, hy, _, hcount⟩ := h.old g z hz
    rw [lent_of_some hy, lent_of_some hz]
    omega
  | none =>
    rw [lent_of_none hz]
    cases hy : s.graph? g with
    | none => exact lent_of_none hy
    | some y =>
      -- a new graph is held by its callers
      obtain ⟨_, _, hcount⟩ := h.fresh g y hz hy
      rw [lent_of_some hy, hcount]
      omega

namespace Registry

theorem lent_reviseGraph {k : Nat → Nat} (hy : r.graph? h = some y) :
    (r.reviseGraph h fun y => { y with refcount := k y.refcount }).lent g =
      r.lent g + if h = g then (k y.refcount : Int) - y.refcount else 0 := by
  by_cases hg : h = g
  · subst hg
    rw [lent, graph?_reviseGraph, if_pos rfl, hy, if_pos rfl, lent_of_some hy]
    simp only [Option.map_some]
    omega
  · rw [lent, lent, graph?_reviseGraph, if_neg (Ne.symm hg), if_neg hg]
    omega

/-- A graph that is left loses a reference for each of its callers that are gone. -/
theorem Remains.lent_eq {m : Module} {D : Set GraphId} (hr : r.Orderly m) (h : r.Remains D t)
    (hy : t.graph? g = some y) : t.lent g = r.lent g := by
  obtain ⟨hg, z, hz, rfl⟩ := h.graph?_iff.1 hy
  have hcounted := h.counted g hg z hz
  have hgone : (r.callsFrom D g).ncard =
      (z.callers.filter fun c => decide (c ∈ r.nodesOf D)).size := by
    rw [ncard_callsFrom hr.mirrored hz]
    refine congrArg OrderedSet.size (OrderedSet.filter_congr fun c _ => ?_)
    rw [decide_eq_decide, hr.mem_nodesOf_iff]
  -- its callers are those that are gone and those that are left
  have hsplit := z.callers.size_filter_add fun c => decide (c ∈ r.nodesOf D)
  have hleft : (z.without (r.nodesOf D) (r.callsFrom D g).ncard).callers =
      z.callers.filter fun c => !decide (c ∈ r.nodesOf D) := by
    refine OrderedSet.filter_congr fun c _ => ?_
    rw [decide_not]
  have hcount : (z.without (r.nodesOf D) (r.callsFrom D g).ncard).refcount =
      z.refcount - (r.callsFrom D g).ncard := rfl
  rw [lent_of_some hy, lent_of_some hz, hleft, hcount]
  omega

/-- **References.** What a step does to the references that no call holds. -/
theorem Effect.lent_eq {a : Step} {o : Outcome} (hr : r.Orderly e.program) (h : r.Effect e a o t)
    (hy : t.graph? g = some y) :
    t.lent g = r.lent g + (if a.takes g o then 1 else 0) - if a.givesBack g then 1 else 0 := by
  cases h with
  | held h =>
    cases h with
    | @held _ k s _ hev hosts =>
      obtain ⟨z, hz, _⟩ := hosts
      rw [lent_reviseGraph (k := fun n => n + 1) hz, hev.lent_eq]
      simp [Step.takes, Step.givesBack]
  | refused h =>
    cases h with
    | refused hev _ hgraph _ _ _ =>
      rw [lent, hgraph, ← lent, hev.lent_eq]
      simp [Step.takes, Step.givesBack]
  | given h _ =>
    rw [h.lent_eq]
    simp [Step.takes, Step.givesBack]
  | retained hz =>
    rw [lent_reviseGraph (k := fun n => n + 1) hz]
    simp [Step.takes, Step.givesBack]
  | @released k z hz h1 =>
    rw [lent_reviseGraph (k := fun n => n - 1) hz]
    simp only [Step.takes, Step.givesBack, decide_eq_true_eq, Bool.false_eq_true, if_false]
    split <;> omega
  | @dropped k _ _ _ _ _ hD hrem =>
    -- the graph that was given back is gone
    have hk : k ≠ g := by
      intro hk
      subst hk
      rw [hrem.gone k hD.1.start] at hy
      cases hy
    rw [hrem.lent_eq hr hy]
    simp [Step.takes, Step.givesBack, hk]
  | @ignored k hn =>
    have hk : k ≠ g := by
      intro hk
      subst hk
      rw [hn] at hy
      cases hy
    simp [Step.takes, Step.givesBack, hk]
  | destroyed _ hrem =>
    rw [hrem.lent_eq hr hy]
    simp [Step.takes, Step.givesBack]
  | setSettings _ => simp [Step.takes, Step.givesBack]
  | setPointsTo _ => simp [Step.takes, Step.givesBack]
  | setScopes _ => simp [Step.takes, Step.givesBack]

end Registry

namespace Session

variable {m : Module} {s : Session} {log : List Entry} {g : GraphId}

/-- What no call holds, steps hold: so it is for a live graph and for a name that is still to come.
-/
theorem Run.lent_eq_holds (hs : Run (.start m) log s)
    (hg : (∃ y, s.registry.graph? g = some y) ∨ s.registry.graphs.next ≤ g.index) :
    s.registry.lent g = holds g log := by
  induction hs with
  | nil => rfl
  | @cons log t u a o hrun hstep ih =>
    have hr := hrun.reachable.orderly
    have heffect := Session.effect hr hstep
    have hnames := heffect.renames
    cases hy : u.registry.graph? g with
    | none =>
      -- a name that is still to come was so before
      have hle : u.registry.graphs.next ≤ g.index := by
        rcases hg with ⟨y, hy'⟩ | hle
        · rw [hy] at hy'
          cases hy'
        · exact hle
      have hle' : t.registry.graphs.next ≤ g.index := hnames.next.trans hle
      have hn : t.registry.graph? g = none := Arena.get?_of_next_le hle'
      rw [holds_cons_of_none hy, ← ih (Or.inr hle'), lent_of_none hy, lent_of_none hn]
    | some y =>
      rw [holds_cons_of_some hy, ← ih ?_, heffect.lent_eq hr hy]
      -- a graph that is live was so before, or its name was to come
      cases hz : t.registry.graph? g with
      | none => exact Or.inr (hnames.fresh g y hz hy)
      | some z => exact Or.inl ⟨z, rfl⟩

/-- **References.** After every run the graphs that a call is linked to are live, and the callers of
a graph are the calls that are linked to it. The references to a graph are those of its callers, one
each, and those that steps hold. A graph without references has no callers. -/
theorem Run.references (hs : Run (.start m) log s) :
    (∀ c x, s.registry.node? c = some x → ∀ g ∈ x.callees, ∃ y, s.registry.graph? g = some y) ∧
    ∀ g y, s.registry.graph? g = some y →
      (∀ c, c ∈ y.callers ↔ ∃ x, s.registry.node? c = some x ∧ g ∈ x.callees) ∧
        (y.refcount : Int) = y.callers.size + holds g log ∧
          (y.refcount = 0 → ∀ c, c ∉ y.callers) := by
  have hr := hs.reachable.orderly
  refine ⟨fun c x hx g hg => ?_, fun g y hy => ⟨fun c => ?_, ?_, hr.held g y hy⟩⟩
  · obtain ⟨y, hy, _⟩ := (hr.mirrored.calls c g).1 ⟨x, hx, hg⟩
    exact ⟨y, hy⟩
  · rw [← Calls, hr.mirrored.calls c g, CalledBy, hy]
    simp
  · have hlent := hs.lent_eq_holds (Or.inl ⟨y, hy⟩)
    rw [lent_of_some hy] at hlent
    omega

/-- A root, then what it calls: `main` is held by the step, and `tick` by the call in `main`. -/
theorem Run.references_of_ticks : ∃ o s y z,
    ((Session.start .ticks).step (.root none)).2 = .ok (o, s) ∧
      s.registry.graph? ⟨0⟩ = some y ∧ s.registry.graph? ⟨1⟩ = some z ∧
      (y.refcount : Int) = y.callers.size + holds ⟨0⟩ [⟨.root none, o, s⟩] ∧
      (z.refcount : Int) = z.callers.size + holds ⟨1⟩ [⟨.root none, o, s⟩] := by
  have hlive : ((Session.start .ticks).step (.root none)).2.toOption.any (fun p =>
      (p.2.registry.graph? ⟨0⟩).isSome && (p.2.registry.graph? ⟨1⟩).isSome) = true := by
    decide +kernel
  obtain ⟨⟨o, s⟩, hstep, htest⟩ := exists_ok_of_any hlive
  obtain ⟨hmain, htick⟩ := Bool.and_eq_true_iff.1 htest
  obtain ⟨y, hy⟩ := Option.isSome_iff_exists.1 hmain
  obtain ⟨z, hz⟩ := Option.isSome_iff_exists.1 htick
  have hs : Session.Run (.start .ticks) [⟨.root none, o, s⟩] s := .cons .nil hstep
  have hrefs := hs.references.2
  exact ⟨o, s, y, z, hstep, hy, hz, (hrefs ⟨0⟩ y hy).2.1, (hrefs ⟨1⟩ z hz).2.1⟩

end Session

end Sdg
