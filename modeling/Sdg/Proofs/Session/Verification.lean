import Sdg.Proofs.Safety.Complete
import Sdg.Proofs.Session.Steady
import Sdg.Query.Verify

/-!
# The structural check

The check looks at what the build of a graph leaves behind: an entry and an exit, units with nodes
that belong there, labels that fit, returns that control the exit, and callers that are linked. All
of that holds of whole graphs in an orderly registry. Every step keeps the registry complete,
whatever the module is like, if only the step does not fail; so nothing is ever found.

Main result:

* `Session.Reachable.verified` — after every run the check finds nothing.
-/

namespace Sdg

open Registry

/-- Nothing is found in a list if nothing is found in any of its items. -/
theorem firstFinding_eq_none {α : Type} {check : α → Except Fault (Option Finding)} {l : List α}
    (h : ∀ a ∈ l, check a = .ok none) : firstFinding check l = .ok none := by
  induction l with
  | nil => rfl
  | cons a l ih =>
    rw [firstFinding, h a List.mem_cons_self]
    exact ih fun b hb => h b (List.mem_cons_of_mem _ hb)

namespace Registry

variable {m : Module} {r : Registry} {g : GraphId} {y : Graph} {k : BlockKey} {u : BlockUnit}
  {n exit : NodeId} {name : String}

/-! ## What is found -/

theorem verifyNode_eq_none (hp : r.Placed g k n) (hf : r.Finished m y n)
    (hexit : y.exitNode? = some exit) : r.verifyNode m g name exit k n = .ok none := by
  obtain ⟨x, hx, hb, hg⟩ := hp
  obtain ⟨x', op?, hx', hop, hret⟩ := hf
  rw [hx] at hx'
  cases hx'
  have hlive : r.liveNode n = .ok x := by
    rw [liveNode, hx]
  have hplaced : ¬ (x.block? ≠ some k ∨ x.graph? ≠ some g) := by simp [hb, hg]
  unfold verifyNode
  rw [hlive]
  simp only [bind, Except.bind, if_neg hplaced, hop, Except.mapError]
  cases op? with
  | none => rfl
  | some op =>
    cases op with
    | ret v? =>
      -- a return controls the exit
      obtain ⟨i, hi, hmem⟩ := hret v? rfl
      rw [hexit] at hi
      cases hi
      simp [hmem, pure, Except.pure]
    | _ => rfl

theorem verifyUnit_eq_none (hr : r.Orderly m) (hy : r.graph? g = some y) (h : Draft m r g y)
    (hexit : y.exitNode? = some exit) (hu : y.unit? k = some u) :
    r.verifyUnit m g name exit u = .ok none := by
  have hk : u.key = k := (hr.shaped g y hy).keyed k u hu
  have hfilled : u.nodes.isEmpty = false := by simpa using h.filled k u hu
  have hnodes : firstFinding (r.verifyNode m g name exit u.key) u.nodes = .ok none := by
    rw [hk]
    exact firstFinding_eq_none fun n hn => verifyNode_eq_none (h.placed k u hu n hn)
      (h.finished k u hu n hn nofun) hexit
  have hedges : u.successors.toList.find? (fun edge =>
      (edge.label = exitLabel) ≠ (edge.other = .exit)) = none := by
    refine List.find?_eq_none.2 fun edge hedge => ?_
    have hfits := h.labelled k edge.other edge.label ⟨u, hu, hedge⟩
    simp [hfits]
  unfold verifyUnit
  rw [hfilled, hnodes, hedges]
  rfl

theorem verifyCaller_eq_none {c : NodeId} (hc : r.Calls c g) :
    r.verifyCaller g name c = .ok none := by
  obtain ⟨x, hx, hmem⟩ := hc
  have hlive : r.liveNode c = .ok x := by
    rw [liveNode, hx]
  unfold verifyCaller
  rw [hlive]
  simp only [bind, Except.bind, if_pos hmem]
  rfl

theorem verifyGraph_eq_none (hr : r.Complete m) (hy : r.graph? g = some y) :
    r.verifyGraph m g y = .ok none := by
  have h := hr.whole g y hy
  obtain ⟨x, hx⟩ := h.draft.ready.function
  obtain ⟨n, hn⟩ := h.draft.ready.entry
  obtain ⟨exit, hexit⟩ := h.exit
  obtain ⟨first, hfirst⟩ := h.first
  obtain ⟨u, hu⟩ := h.draft.exit exit hexit
  have hunits : firstFinding (r.verifyUnit m g x.name exit) (y.units.values ++ [u]) = .ok none := by
    refine firstFinding_eq_none fun w hw => ?_
    rcases List.mem_append.1 hw with hw | hw
    · obtain ⟨p, hp, rfl⟩ := List.mem_map.1 hw
      exact verifyUnit_eq_none hr.orderly hy h.draft hexit (k := .block p.1)
        (OrderedMap.mem_entries.1 hp)
    · rw [List.mem_singleton.1 hw]
      exact verifyUnit_eq_none hr.orderly hy h.draft hexit hu
  have hcallers : firstFinding (r.verifyCaller g x.name) y.callers.toList = .ok none :=
    firstFinding_eq_none fun c hc =>
      verifyCaller_eq_none ((hr.orderly.mirrored.calls c g).2 ⟨y, hy, hc⟩)
  have hexitUnit : y.exitUnit? = some u := hu
  unfold verifyGraph
  split
  · rfl
  · simp [hx, hexit, hn, hfirst, hexitUnit, hunits, hcallers, Except.mapError, bind, Except.bind]

/-- Nothing is found in a complete registry. -/
theorem verify_eq_none (hr : r.Complete m) : r.verify m = .ok none :=
  firstFinding_eq_none fun _ hp => verifyGraph_eq_none hr (mem_liveGraphs.1 hp)

end Registry

/-! ## Every run -/

namespace Session

variable {m : Module} {s t : Session} {a : Step} {o : Outcome}

/-- A step that did not fail leaves a complete registry complete. -/
theorem complete_of_step (hr : s.registry.Complete s.setup.program)
    (h : (s.step a).2 = .ok (o, t)) : t.registry.Complete s.setup.program := by
  -- steps that build are judged by what building does, the others by their effect
  have heffect := Session.effect hr.orderly h
  cases a with
  | root name? =>
    have hw : Work.wp s.setup.Blames (s.work (.root name?))
        (fun _ t => t.Complete s.setup.program) s.registry := by
      refine Work.wp_bind (Work.constructRoot_complete hr _) ?_
      intro root? r hpost
      cases root? with
      | ok g => exact Work.wp_pure hpost.1
      | error x => exact Work.wp_pure hpost.1
    exact of_step hw h
  | getOrBuild f =>
    by_cases hdef : s.setup.program.Defines f
    · have hw : Work.wp s.setup.Blames (s.work (.getOrBuild f))
          (fun _ t => t.Complete s.setup.program) s.registry :=
        Work.wp_bind (Work.getOrBuild_complete hr fun _ => hdef) fun _ _ ht => Work.wp_pure ht
      exact of_step hw h
    · -- without a body nothing is built, but its node may be made
      have hw : Work.wp Fault.Genuine (s.work (.getOrBuild f))
          (fun _ t => t.Complete s.setup.program) s.registry :=
        Work.wp_bind (Work.getOrBuild_undefined hr.orderly hdef) fun _ _ ht =>
          Work.wp_pure (hr.advance ht.evolves.changes ht.advances)
      exact of_step hw h
  | retain g =>
    generalize t.registry = t' at heffect
    cases heffect with
    | retained _ =>
      exact hr.recount (k := fun n => n + 1) fun _ _ h0 => absurd h0 (Nat.succ_ne_zero _)
  | release g =>
    generalize t.registry = t' at heffect
    cases heffect with
    | released hy h1 =>
      refine hr.recount (k := fun n => n - 1) fun z hz hz0 => ?_
      rw [hy] at hz
      cases hz
      omega
    | dropped _ _ hD hrem => exact hr.remains hD.1 hrem
    | ignored _ => exact hr
  | destroy g =>
    generalize t.registry = t' at heffect
    cases heffect with
    | destroyed hD hrem => exact hr.remains hD.1 hrem
  | setSettings x =>
    generalize t.registry = t' at heffect
    cases heffect
    exact hr
  | setPointsTo p =>
    generalize t.registry = t' at heffect
    cases heffect
    exact hr
  | setScopes p =>
    generalize t.registry = t' at heffect
    cases heffect
    exact hr

namespace Reachable

/-- After every run the registry is complete. -/
theorem complete (hs : Session.Reachable m s) : s.registry.Complete m := by
  induction hs with
  | start => exact .empty m
  | @step s t a o hs hstep ih =>
    have hm := hs.steady.1
    rw [← hm] at ih ⊢
    exact complete_of_step ih hstep

/-- **The structural check.** After every run the check comes to its end and finds nothing. Every
live graph is built, has its entry and its exit and a unit for each of them, all its units have
nodes, which belong there, labels fit, and returns control the exit; and a node in its callers is
live and linked to it. -/
theorem verified (hs : Session.Reachable m s) : s.registry.verify m = .ok none ∧
    ∀ g y, s.registry.graph? g = some y → y.phase = .built ∧ Whole m s.registry g y ∧
      ∀ c ∈ y.callers, s.registry.Calls c g := by
  have hr := hs.complete
  refine ⟨verify_eq_none hr, fun g y hy => ⟨hs.steady.2.built g y hy, hr.whole g y hy, ?_⟩⟩
  intro c hc
  exact (hr.orderly.mirrored.calls c g).2 ⟨y, hy, hc⟩

/-- The graph of `main` is built and whole, and the check finds nothing in it. -/
theorem verified_ticks : ∃ o s y, ((Session.start .ticks).step (.root none)).2 = .ok (o, s) ∧
    s.registry.graph? ⟨0⟩ = some y ∧ s.registry.verify .ticks = .ok none ∧
      Whole .ticks s.registry ⟨0⟩ y := by
  have hbuilt : ((Session.start .ticks).step (.root none)).2.toOption.any (fun p =>
      (p.2.registry.graph? ⟨0⟩).isSome) = true := by decide +kernel
  obtain ⟨⟨o, s⟩, hstep, htest⟩ := exists_ok_of_any hbuilt
  obtain ⟨y, hy⟩ := Option.isSome_iff_exists.1 htest
  have hs : Session.Reachable .ticks s := .step .start hstep
  obtain ⟨hverify, hgraphs⟩ := hs.verified
  exact ⟨o, s, y, hstep, hy, hverify, (hgraphs ⟨0⟩ y hy).2.1⟩

end Reachable

end Session

end Sdg
