import Sdg.Proofs.IR.RoundTrip
import Sdg.Proofs.Lookup.Builds
import Sdg.Proofs.Session.CallSites
import Sdg.Proofs.Session.Integrity
import Sdg.Proofs.Session.Log
import Sdg.Proofs.Session.Verification

/-!
# Lookups of sessions

A module that was loaded is closed. In a session on it no step looks up an id without an entry, if
only the functions that are asked for and the values that an oracle points at are in range; whatever
else is wrong with the module, a step that fails says what. Between steps everything can be looked
at: the nodes that graphs and edges name are live, so the export places all edges, the check comes
to its end, and call sites are found.

Main result:

* `Module.lookups_of_load` — what is looked up in a loaded module, and in every session on it, is
  there.
-/

namespace Sdg

open Registry

/-- A fault that is neither about an id without an entry nor about a bound has a wording. -/
theorem Fault.exists_message {f : Fault} (hg : f.Genuine) (hr : f.Resolved) :
    ∃ text, f.message? = some ("INVARIANT VIOLATED: " ++ text) := by
  cases f with
  | missing x => exact absurd rfl (hr x)
  | exhausted => exact absurd rfl hg
  | _ => exact ⟨_, rfl⟩

/-! ## Steps in range -/

/-- Whether what a step asks for or hands over is in range. -/
def Step.Within (m : Module) : Step → Prop
  | .getOrBuild f => f.Within m
  | .setPointsTo p => p.Within m
  | .setScopes s => s.Answers m
  | _ => True

theorem Module.IsClosed.standard_answers {m : Module} (hm : m.IsClosed) (given : Prop) :
    (Setup.standard m).Answers given where
  closed := hm
  scopes _ f hf := by
    obtain ⟨scope, hscope, _⟩ := hm.exists_controlScopes hf
    exact ⟨scope, hscope⟩
  pointsTo _ p hp := by cases hp

namespace Session

variable {m : Module} {log : List Entry} {s t : Session} {a : Step} {o : Outcome} {given : Prop}

theorem answers_reconfigure {e : Setup} (he : e.Answers given)
    (ha : given → a.Within e.program) : (reconfigure e a).Answers given := by
  cases a with
  | setSettings x => exact ⟨he.closed, he.scopes, he.pointsTo⟩
  | setPointsTo p =>
    exact ⟨he.closed, he.scopes, fun hgiven q hq => Option.some.inj hq ▸ ha hgiven⟩
  | setScopes p => exact ⟨he.closed, ha, he.pointsTo⟩
  | _ => exact he

/-- A step that asks for no function out of range leaves all ids in range; and if all that was given
is in range, it looks up no others. -/
theorem resolves_work (he : s.setup.Answers given)
    (ha : ∀ f, a = .getOrBuild f → f.Within s.setup.program) :
    Work.Resolves given s.setup.program (s.work a) := by
  cases a with
  | root name? =>
    refine .bind (Work.resolves_constructRoot he _) fun x => ?_
    cases x <;> exact .pure _
  | getOrBuild f => exact .bind (Work.resolves_getOrBuild he (ha f rfl)) fun _ => .pure _
  | retain g =>
    have hretain : Work.Resolves given s.setup.program (Work.retain g) :=
      Work.resolves_updateGraph fun y hy => hy.of_eq rfl rfl
    exact .bind hretain fun _ => .pure _
  | release g => exact .bind (Work.resolves_unref true) fun _ => .pure _
  | destroy g => exact .bind Work.resolves_destroy fun _ => .pure _
  | _ => exact .pure _

/-- **Runs.** After every run of steps in range nothing that is given leads to an id without an
entry, and the ids that the registry keeps are in range. -/
theorem Run.within (hm : m.IsClosed) (hs : Run (.start m) log s)
    (hlog : ∀ x ∈ log, x.step.Within m) :
    s.setup.program = m ∧ s.setup.Answers True ∧ s.registry.Within m := by
  induction hs with
  | nil => exact ⟨rfl, hm.standard_answers _, .empty m⟩
  | @cons log t u a o _ hstep ih =>
    obtain ⟨hprogram, hanswers, hwithin⟩ := ih fun x hx => hlog x (List.mem_cons_of_mem _ hx)
    have ha := hlog ⟨a, o, u⟩ List.mem_cons_self
    rw [← hprogram] at ha hwithin
    have hasked : ∀ f, a = .getOrBuild f → f.Within t.setup.program := fun f hf => by
      subst hf
      exact ha
    have hu := of_step (resolves_work hanswers hasked _ hwithin) hstep
    rw [setup_of_step hstep, program_reconfigure, ← hprogram]
    exact ⟨rfl, answers_reconfigure hanswers fun _ => ha, hu⟩

/-- A step in range that fails says why. -/
theorem Run.exists_message (hm : m.IsClosed) (hs : Run (.start m) log s)
    (hlog : ∀ x ∈ log, x.step.Within m) (ha : a.Within m) {f : Fault}
    (hf : (s.step a).2 = .error f) :
    ∃ text, f.message? = some ("INVARIANT VIOLATED: " ++ text) := by
  obtain ⟨hprogram, hanswers, hwithin⟩ := hs.within hm hlog
  rw [← hprogram] at ha hwithin
  have hasked : ∀ f, a = .getOrBuild f → f.Within s.setup.program := fun f hf => by
    subst hf
    exact ha
  exact Fault.exists_message (fault_of_step (effect_work hs.reachable.orderly a) hf)
    (fault_of_step (resolves_work hanswers hasked _ hwithin) hf trivial)

end Session

/-! ## Looking at a registry -/

namespace Registry

variable {m : Module} {r : Registry} {n : NodeId} {x : Node}

/-- The ends of all edges are live, those that stand for edges between units too. -/
theorem Orderly.live_of_edgeEnds (hr : r.Orderly m) {p : NodeId × NodeId × EdgeKind}
    (hp : p ∈ r.edgeEnds) :
    (∃ x, r.node? p.1 = some x) ∧ ∃ x, r.node? p.2.1 = some x := by
  rcases List.mem_append.1 hp with hp | hp
  · obtain ⟨⟨k, x⟩, hx, hp⟩ := List.mem_flatMap.1 hp
    have hx := mem_liveNodes.1 hx
    -- edges between nodes are kept at both ends
    rcases List.mem_append.1 hp with hp | hp
    · obtain ⟨t, ht, he⟩ := List.mem_map.1 hp
      cases he
      obtain ⟨z, hz, _⟩ := (hr.mirrored.controls _ _).1 ⟨x, hx, ht⟩
      exact ⟨⟨x, hx⟩, z, hz⟩
    · obtain ⟨t, ht, he⟩ := List.mem_map.1 hp
      cases he
      obtain ⟨z, hz, _⟩ := (hr.mirrored.feeds _ _).1 ⟨x, hx, ht⟩
      exact ⟨⟨x, hx⟩, z, hz⟩
  · obtain ⟨⟨g, y⟩, hy, hp⟩ := List.mem_flatMap.1 hp
    have hy := mem_liveGraphs.1 hy
    obtain ⟨u, hu, hp⟩ := List.mem_flatMap.1 hp
    obtain ⟨k, hu⟩ := OrderedMap.mem_values.1 hu
    obtain ⟨c, _, hp⟩ := List.mem_filterMap.1 hp
    obtain ⟨last, hlast, hp⟩ := Option.bind_eq_some_iff.1 hp
    obtain ⟨first, hfirst, he⟩ := Option.bind_eq_some_iff.1 hp
    cases he
    obtain ⟨w, hw, hfirst⟩ := Option.bind_eq_some_iff.1 hfirst
    have hu : y.unit? (.block k) = some u := hu
    exact ⟨hr.live_of_mentions hy (.unit hu (List.mem_of_getLast? hlast)),
      hr.live_of_mentions hy (.unit hw (List.mem_of_head? hfirst))⟩

/-- Everything can be exported, and what is live has a position then. -/
theorem Within.exists_export (hm : m.IsClosed) (hr : r.Within m) :
    ∃ e, r.toExport m = .ok e ∧ ∀ n x, r.node? n = some x → ∃ i, e.find? n = some i := by
  have hnode : ∀ p ∈ r.liveNodes, ∃ z, r.exportNode m p.1 p.2 = .ok z ∧ z.id = p.1 := by
    intro p hp
    obtain ⟨label, hlabel⟩ := hm.exists_label (hr.node p.1 p.2 (mem_liveNodes.1 hp))
    exact ⟨_, by rw [exportNode, hlabel]; rfl, rfl⟩
  have hall : ∃ nodes, r.liveNodes.mapM (fun p => r.exportNode m p.1 p.2) = .ok nodes :=
    exists_mapM fun p hp => (hnode p hp).imp fun _ h => h.1
  obtain ⟨nodes, hnodes⟩ := hall
  refine ⟨_, by rw [toExport, hnodes]; rfl, fun n x hx => ?_⟩
  have hlive := mem_liveNodes.2 hx
  obtain ⟨z, hz, hexport⟩ := exists_mem_of_mapM hnodes hlive
  obtain ⟨z', hexport', hid⟩ := hnode (n, x) hlive
  rw [hexport] at hexport'
  cases hexport'
  refine Option.isSome_iff_exists.1 ?_
  rw [Export.find?, List.findIdx?_isSome]
  exact List.any_eq_true.2 ⟨z, hz, decide_eq_true hid⟩

end Registry

/-! ## Loaded modules -/

namespace Module

/-- **Lookups.** The queries of a module that was loaded are answered at ids in range, with ids in
range, and so are the control scopes of its functions, at every block. In every session on it whose
requests, targets of pointers and scopes are in range, a step that fails does so with a wording of
its own, so not because an id has no entry. Between steps the registry can be looked at: it is
exported, with a position for both ends of each edge; the check comes to its end; the call sites of
all names are found. What a live graph names is live, so a teardown finds the callers of its graph.
-/
theorem lookups_of_load {text : String} {m : Module} (h : load text = .ok m) :
    m.Answers ∧
    (∀ f : FunctionId, f.Within m →
      ∃ scope, postDominanceScopes m f = .ok scope ∧ ∀ b, ∀ c ∈ scope b, c.Within m) ∧
    ∀ log s, Session.Run (.start m) log s → (∀ x ∈ log, x.step.Within m) →
      (∀ a f, a.Within m → (s.step a).2 = .error f →
        ∃ text, f.message? = some ("INVARIANT VIOLATED: " ++ text)) ∧
      (∃ x, s.registry.toExport m = .ok x ∧
        ∀ p ∈ s.registry.edgeEnds, ∃ i j, x.find? p.1 = some i ∧ x.find? p.2.1 = some j) ∧
      s.registry.verify m = .ok none ∧
      (∀ names, ∃ calls, s.registry.callSites m names = .ok calls) ∧
      ∀ g y, s.registry.graph? g = some y → ∀ n, y.Mentions n →
        ∃ x, s.registry.node? n = some x := by
  obtain ⟨_, _, _, hm⟩ := load_eq_ok_iff.1 h
  refine ⟨hm.answers, fun f hf => hm.exists_controlScopes hf, fun log s hs hlog => ?_⟩
  -- along a run in range the registry stays in range, and between steps it is complete
  obtain ⟨_, _, hwithin⟩ := hs.within hm hlog
  have ho := hs.reachable.complete.orderly
  obtain ⟨x, hx, hplace⟩ := hwithin.exists_export hm
  refine ⟨fun a f ha hf => hs.exists_message hm hlog ha hf, ⟨x, hx, fun p hp => ?_⟩,
    verify_eq_none hs.reachable.complete, fun names => ?_,
    fun g y hy n hn => ho.live_of_mentions hy hn⟩
  · obtain ⟨⟨z, hz⟩, z', hz'⟩ := ho.live_of_edgeEnds hp
    obtain ⟨i, hi⟩ := hplace p.1 z hz
    obtain ⟨j, hj⟩ := hplace p.2.1 z' hz'
    exact ⟨i, j, hi, hj⟩
  · obtain ⟨calls, hcalls, _⟩ := hs.reachable.exists_callSites names
    exact ⟨calls, hcalls⟩

/-- The small module is loaded from its text. After its root was built a request for the allocating
function, which has no body, fails with a wording; the registry is exported all the same. -/
theorem lookups_of_load_ticks : ∃ s, load ticks.toJson.render = .ok ticks ∧
    ((Session.start ticks).step (.root none)).2 = .ok (.graph ⟨0⟩, s) ∧
      (s.step (.getOrBuild ⟨2⟩)).2 = .error (.declaration "malloc") ∧
      (∃ text, (Fault.declaration "malloc").message? = some ("INVARIANT VIOLATED: " ++ text)) ∧
      ∃ x, s.registry.toExport ticks = .ok x := by
  have hclosed : ticks.IsClosed := dangling?_eq_none_iff.1 (by decide +kernel)
  have hload : load ticks.toJson.render = .ok ticks :=
    load_render_iff.2 ⟨hclosed, .of_nesting (by decide +kernel)⟩
  have hfails : ((Session.start ticks).step (.root none)).2.toOption.any (fun p =>
      decide (p.1 = .graph ⟨0⟩) && match (p.2.step (.getOrBuild ⟨2⟩)).2 with
        | .error f => decide (f = .declaration "malloc")
        | .ok _ => false) = true := by decide +kernel
  obtain ⟨⟨o, s⟩, hstep, htest⟩ := exists_ok_of_any hfails
  obtain ⟨ho, hfault⟩ := Bool.and_eq_true_iff.1 htest
  cases of_decide_eq_true ho
  have hfault : (s.step (.getOrBuild ⟨2⟩)).2 = .error (.declaration "malloc") := by
    revert hfault
    cases (s.step (.getOrBuild ⟨2⟩)).2 with
    | ok _ => exact fun h => absurd h Bool.false_ne_true
    | error f => exact fun h => congrArg Except.error (of_decide_eq_true h)
  have hs : Session.Run (.start ticks) [⟨.root none, .graph ⟨0⟩, s⟩] s := .cons .nil hstep
  obtain ⟨_, _, hsessions⟩ := lookups_of_load hload
  have hlog : ∀ x ∈ [(⟨.root none, .graph ⟨0⟩, s⟩ : Entry)], x.step.Within ticks := by
    intro x hx
    rw [List.mem_singleton.1 hx]
    exact trivial
  obtain ⟨hwords, ⟨x, hx, _⟩, _⟩ := hsessions _ s hs hlog
  have hrange : EntryId.Within (⟨2⟩ : FunctionId) ticks := by decide
  exact ⟨s, hload, hstep, hfault, hwords (.getOrBuild ⟨2⟩) _ hrange hfault, x, hx⟩

end Module

end Sdg
