import Sdg.Proofs.Control.Builds
import Sdg.Proofs.Control.Teardown
import Sdg.Proofs.Session.Log
import Sdg.Proofs.Session.Verification

/-!
# Control edges of sessions

Between two steps no body is under way and no graph lacks anything. The control edges are then the
documented ones, without exception, whatever was built, torn down and set up anew in between. All
that they depend on of what is given is whether phis are controlled, so only that has to stay.

Main result:

* `Session.Run.control_edges` — after every run the control edges are the documented ones.
-/

namespace Sdg

open Registry

namespace Registry

variable {m : Module} {phiControl : Bool} {r : Registry} {a b c n : NodeId} {g : GraphId}
  {y : Graph}

/-! ## Between steps -/

/-- Edges that are due are there, since returns control the exits of whole graphs. -/
theorem Wired.controls_of_attached (hr : r.Complete m) (hw : r.Wired m phiControl ∅ ∅)
    (h : r.Attached m a b) : r.Controls a b := by
  cases h with
  | formal isOutput hy hen hq he =>
    rw [he]
    exact hw.formals _ _ _ _ _ _ hy hen hq
  | actual isOutput hx hq he =>
    rw [he]
    exact hw.actuals _ _ _ _ _ hx hq
  | call hc hy hen =>
    obtain ⟨z, hz, hcontrols⟩ := hw.calls _ _ hc
    rw [hy] at hz
    cases hz
    exact hcontrols _ hen
  | ret hy hu hn hx hop hex =>
    obtain ⟨x', op?, hx', hop', hret⟩ := (hr.whole _ _ hy).draft.finished _ _ hu _ hn nofun
    rw [hx] at hx'
    cases hx'
    rw [hop] at hop'
    cases hop'
    obtain ⟨exit, hexit, hmem⟩ := hret _ rfl
    rw [hex] at hexit
    cases hexit
    exact ⟨_, hx, hmem⟩

/-- **Between steps** the control edges are the documented ones. -/
theorem Wired.controls_iff (hr : r.Complete m) (hw : r.Wired m phiControl ∅ ∅) :
    r.Controls a b ↔ r.Commands m phiControl a b := by
  constructor
  · intro hab
    exact (hw.sound a b hab).imp_right fun hp => hp.imp fun _ h => h.2
  · intro hab
    rcases hab with hatt | ⟨g, harr⟩
    · exact hw.controls_of_attached hr hatt
    · exact hw.arranged g nofun a b harr

/-- What controls the entry of a graph is a call that is linked to the graph. -/
theorem Wired.controls_entry_iff (hr : r.Complete m) (hw : r.Wired m phiControl ∅ ∅)
    (hy : r.graph? g = some y) (hn : y.entryNode? = some n) :
    r.Controls c n ↔ r.Calls c g := by
  -- an entry is indexed, and it belongs to no unit
  obtain ⟨key, hkey⟩ := (hr.orderly.shaped g y hy).entry n hn
  have hplace : r.occupant (.index g key) = some n := by
    rw [occupant, hy]
    exact hkey
  have hnowhere : ∀ k, ¬ r.Sits n (some k) := by
    intro k hk
    obtain ⟨x, hx, hb⟩ := hk
    obtain ⟨x', hx', hb'⟩ := (hw.seated g y hy).entry n hn
    rw [hx] at hx'
    cases hx'
    rw [hb] at hb'
    cases hb'
  constructor
  · intro hab
    rcases (hw.controls_iff hr).1 hab with hatt | ⟨h, harr⟩
    · cases hatt with
      | @formal h z i q isOutput hz _ hq he =>
        have hocc : r.occupant (.formal h i isOutput) = some n := by
          rw [occupant, hz, Option.bind_some, hq, he]
          rfl
        cases hr.orderly.housed.inj _ _ _ hplace hocc
      | @actual x i q isOutput hx hq he =>
        have hocc : r.occupant (.actual c i isOutput) = some n := by
          rw [occupant, hx, Option.bind_some, hq, he]
          rfl
        cases hr.orderly.housed.inj _ _ _ hplace hocc
      | call hc hz hen =>
        -- two graphs with the same entry are the same
        have hgh := OwnedBy.inj (hr.orderly.ownedBy_of_entry hy hn)
          (hr.orderly.ownedBy_of_entry hz hen)
        exact hgh ▸ hc
      | ret hz _ _ _ _ hex => exact absurd ((hw.seated _ _ hz).exit n hex) (hnowhere _)
    · cases harr with
      | first hz _ _ _ hu hb =>
        exact absurd ((hw.seated _ _ hz).nodes _ _ hu n (List.mem_of_head? hb)) (hnowhere _)
      | phi _ hz hu hb _ => exact absurd ((hw.seated _ _ hz).nodes _ _ hu n hb) (hnowhere _)
  · intro hc
    exact (hw.controls_iff hr).2 (Or.inl (.call hc hy hn))

/-- Nothing is there to be controlled at the start. -/
theorem Wired.empty (m : Module) (phiControl : Bool) : Registry.empty.Wired m phiControl ∅ ∅ := by
  constructor
  case within => exact subset_rfl
  case live => exact nofun
  case seated => exact fun _ _ hy => nomatch hy
  case formals => exact fun _ _ _ _ _ _ hy => nomatch hy
  case actuals => exact fun _ _ _ _ _ hx => nomatch hx
  case calls =>
    intro _ _ hc
    obtain ⟨_, hx, _⟩ := hc
    cases hx
  case arranged =>
    intro _ _ _ _ hab
    obtain ⟨_, hy⟩ := hab.exists_graph
    cases hy
  case sound =>
    intro _ _ hab
    obtain ⟨_, hx, _⟩ := hab
    cases hx

/-- References may be counted anew. -/
theorem Wired.recount (hw : r.Wired m phiControl ∅ ∅) (hy : r.graph? g = some y) (k : Nat → Nat) :
    (r.reviseGraph g fun y => { y with refcount := k y.refcount }).Wired m phiControl ∅ ∅ :=
  (hw.dress (f := fun y => { y with refcount := k y.refcount }) hy
    (.of_units rfl rfl rfl rfl rfl rfl rfl) (.of_eq rfl rfl rfl rfl fun _ h => h) rfl).2

end Registry

/-! ## Every run -/

namespace Session

variable {e : Setup} {log : List Entry} {s t : Session} {a : Step} {o : Outcome}

/-- A step that did not fail leaves the control edges right. -/
theorem wired_of_step (hr : s.registry.Orderly s.setup.program)
    (hw : s.registry.Wired s.setup.program s.setup.settings.phiControl ∅ ∅)
    (h : (s.step a).2 = .ok (o, t)) :
    t.registry.Wired s.setup.program s.setup.settings.phiControl ∅ ∅ := by
  -- steps that build are judged by what building does, the others by their effect
  have heffect := Session.effect hr h
  cases a with
  | root name? =>
    have hwork : Work.wp Fault.Any (s.work (.root name?)) (fun _ t =>
        t.Wired s.setup.program s.setup.settings.phiControl ∅ ∅) s.registry := by
      refine Work.wp_bind (Work.constructRoot_wired hr hw _) ?_
      intro root? r hpost
      cases root? with
      | ok g => exact Work.wp_pure hpost.1
      | error x => exact Work.wp_pure hpost.1
    exact of_step hwork h
  | getOrBuild f =>
    have hwork : Work.wp Fault.Any (s.work (.getOrBuild f)) (fun _ t =>
        t.Wired s.setup.program s.setup.settings.phiControl ∅ ∅) s.registry :=
      Work.wp_bind (Work.getOrBuild_wired hw) fun _ _ ht => Work.wp_pure ht
    exact of_step hwork h
  | retain g =>
    generalize t.registry = t' at heffect
    cases heffect with
    | retained hy => exact hw.recount hy fun n => n + 1
  | release g =>
    generalize t.registry = t' at heffect
    cases heffect with
    | released hy _ => exact hw.recount hy fun n => n - 1
    | dropped _ _ _ hrem => exact hw.remains hr hrem
    | ignored _ => exact hw
  | destroy g =>
    generalize t.registry = t' at heffect
    cases heffect with
    | destroyed _ hrem => exact hw.remains hr hrem
  | setSettings x =>
    generalize t.registry = t' at heffect
    cases heffect
    exact hw
  | setPointsTo p =>
    generalize t.registry = t' at heffect
    cases heffect
    exact hw
  | setScopes p =>
    generalize t.registry = t' at heffect
    cases heffect
    exact hw

namespace Run

/-- The registry is complete after every run, with the control edges that it has to have. -/
theorem wired (hs : Run ⟨e, .empty⟩ log s)
    (hphi : ∀ x ∈ log, x.after.setup.settings.phiControl = e.settings.phiControl) :
    s.setup.program = e.program ∧ s.setup.settings.phiControl = e.settings.phiControl ∧
      s.registry.Complete e.program ∧
        s.registry.Wired e.program e.settings.phiControl ∅ ∅ := by
  induction hs with
  | nil => exact ⟨rfl, rfl, .empty _, .empty _ _⟩
  | @cons log t u a o _ hstep ih =>
    obtain ⟨hm, hp, hr, hw⟩ := ih fun x hx => hphi x (List.mem_cons_of_mem _ hx)
    rw [← hm] at hr
    rw [← hm, ← hp] at hw
    have hr' := complete_of_step hr hstep
    have hw' := wired_of_step hr.orderly hw hstep
    rw [hm] at hr' hw'
    rw [hp] at hw'
    refine ⟨?_, hphi _ List.mem_cons_self, hr', hw'⟩
    rw [setup_of_step hstep, program_reconfigure, hm]

/-- **Control edges.** After every run in which it stays the same whether phis are controlled, the
control edges between nodes are the documented ones and no others. What controls the entry of a
graph is just the calls that are linked to the graph. -/
theorem control_edges (hs : Run ⟨e, .empty⟩ log s)
    (hphi : ∀ x ∈ log, x.after.setup.settings.phiControl = e.settings.phiControl) :
    (∀ a b, s.registry.Controls a b ↔
      s.registry.Commands e.program e.settings.phiControl a b) ∧
    ∀ g y n, s.registry.graph? g = some y → y.entryNode? = some n →
      ∀ c, s.registry.Controls c n ↔ s.registry.Calls c g := by
  obtain ⟨_, _, hr, hw⟩ := hs.wired hphi
  exact ⟨fun a b => hw.controls_iff hr, fun g y n hy hn c => hw.controls_entry_iff hr hy hn⟩

/-- The call in `main` controls the entry of `tick`, and is linked to `tick` therefore. -/
theorem control_edges_of_ticks : ∃ o s y n,
    ((Session.start .ticks).step (.root none)).2 = .ok (o, s) ∧
      s.registry.graph? ⟨1⟩ = some y ∧ y.entryNode? = some n ∧
        s.registry.Commands .ticks true ⟨5⟩ n ∧ s.registry.Calls ⟨5⟩ ⟨1⟩ := by
  have hcontrols : ((Session.start .ticks).step (.root none)).2.toOption.any (fun p =>
      (p.2.registry.graph? ⟨1⟩).any fun y => y.entryNode?.any fun n =>
        (p.2.registry.node? ⟨5⟩).any fun x => decide (n ∈ x.controls)) = true := by
    decide +kernel
  obtain ⟨⟨o, s⟩, hstep, htest⟩ := exists_ok_of_any hcontrols
  obtain ⟨y, hy, hentry⟩ := (Option.any_eq_true _ _).1 htest
  obtain ⟨n, hn, hnode⟩ := (Option.any_eq_true _ _).1 hentry
  obtain ⟨x, hx, hmem⟩ := (Option.any_eq_true _ _).1 hnode
  have hcn : s.registry.Controls ⟨5⟩ n := ⟨x, hx, of_decide_eq_true hmem⟩
  have hs : Run ⟨.standard .ticks, .empty⟩ [⟨.root none, o, s⟩] s := .cons .nil hstep
  obtain ⟨hedges, hentries⟩ := hs.control_edges fun z hz => by
    rw [List.mem_singleton.1 hz, setup_of_step hstep]
    rfl
  exact ⟨o, s, y, n, hstep, hy, hn, (hedges ⟨5⟩ n).1 hcn, (hentries ⟨1⟩ y n hy hn ⟨5⟩).1 hcn⟩

end Run

end Session

end Sdg
