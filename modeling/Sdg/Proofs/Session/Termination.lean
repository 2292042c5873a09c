import Sdg.Proofs.Building.CutOff
import Sdg.Proofs.Session.Steady

/-!
# Termination

Three recursions are nested in each other: builds, absorption, and propagation to callers. Each is
bounded, and no bound is ever felt: the functions without a graph become fewer with each nested
build, and the values that are no parameter of a graph yet become fewer with each nested
propagation.

Main results:

* `Session.Reachable.construction_ends` — steps that build end, with bounds that do not matter.
-/

namespace Sdg

open Registry

namespace Session

variable {m : Module} {s : Session} {a : Step} {Q : Outcome → Registry → Prop}

/-- A step whose work is not cut off ends, well or in a fault that says something. -/
theorem not_exhausted (hw : Work.wp Fault.Genuine (s.work a) Q s.registry) :
    (s.step a).2 ≠ .error .exhausted :=
  fun h => fault_of_step hw h rfl

/-- **Termination.** After every run the steps that build come to an end. On all registries that a
build comes to from there, a request and a propagation are what the recursions without a bound make
of them: what is nested is the same again, and it is called only where fewer functions have no
graph, or where fewer values are missing among the parameters of the graphs. So builds nest at most
as deep as the module has functions, and higher bounds change nothing. -/
theorem Reachable.construction_ends (hs : Session.Reachable m s) :
    (∀ name?, (s.step (.root name?)).2 ≠ .error .exhausted) ∧
      (∀ f, (s.step (.getOrBuild f)).2 ≠ .error .exhausted) ∧
      ∀ r, Changes s.setup s.registry r →
        r.pending m ≤ m.functions.size ∧
        (∀ f, r.lookup? f = none → Work.Agree (r.pushGraph (.fresh f))
          (Work.buildWith (Work.request s.setup) s.setup r.nextGraph)
          (Work.buildWith (fun f => Work.below (pending m) (r.pending m) (Work.request s.setup f))
            s.setup r.nextGraph)) ∧
        (∀ f, Work.Agree r (Work.request s.setup f)
          (Work.requestRound (fun f => Work.below (pending m) (r.pending m)
            (Work.request s.setup f)) s.setup f)) ∧
        (∀ f depth, r.pending m < depth →
          Work.Agree r (Work.request s.setup f) (Work.requestWithin s.setup depth f)) ∧
        (∀ g h, r.Links g h → Work.Agree r (Work.absorb m g h)
          (Work.absorbWith (fun k => Work.below (room m) (r.room m) (Work.propagate m k)) m g h)) ∧
        (∀ g, Work.Agree r (Work.propagate m g)
          (Work.propagateRound (fun k => Work.below (room m) (r.room m) (Work.propagate m k)) m
            g)) ∧
        ∀ g depth, r.room m < depth →
          Work.Agree r (Work.propagate m g) (Work.propagateWithin m depth g) := by
  obtain ⟨hm, _⟩ := hs.steady
  have ho := hs.orderly
  -- a fault of the work would be a genuine one, and running out of depth is none
  have hget : ∀ f, Work.wp Fault.Genuine (s.work (.getOrBuild f)) (fun _ _ => True) s.registry :=
    fun f => Work.wp_bind (Work.getOrBuild_spec ho) fun _ _ _ => Work.wp_pure trivial
  refine ⟨fun name? => not_exhausted (root_work ho name?), fun f => not_exhausted (hget f), ?_⟩
  intro r hr
  have hro : r.Orderly s.setup.program := ho.changes hr
  subst hm
  refine ⟨r.pending_le _, fun f hf => ?_, fun f => ?_, fun f depth hd => ?_, fun g h hl => ?_,
    fun g => ?_, fun g depth hd => ?_⟩
  · exact (Work.agree_buildWith hro hf).symm
  · exact (Work.agree_request hro).symm
  · exact (Work.agree_requestWithin hro hd).symm
  · exact (Work.agree_absorb hro hl).symm
  · exact (Work.agree_propagate hro).symm
  · exact (Work.agree_propagateWithin hro hd).symm

/-- A request for `tick` after `main` was built is one round, whatever is nested in it. -/
theorem Reachable.construction_ends_ticks :
    ∃ o s, ((Session.start .ticks).step (.root none)).2 = .ok (o, s) ∧
      (s.step (.getOrBuild ⟨1⟩)).2 ≠ .error .exhausted ∧
      Work.Agree s.registry (Work.request s.setup ⟨1⟩) (Work.requestWithin s.setup 4 ⟨1⟩) := by
  have hok : ((Session.start .ticks).step (.root none)).2.toOption.any (fun _ => true) = true := by
    decide +kernel
  obtain ⟨⟨o, s⟩, hstep, -⟩ := exists_ok_of_any hok
  have hs : Session.Reachable .ticks s := .step .start hstep
  obtain ⟨-, hget, hall⟩ := hs.construction_ends
  obtain ⟨hle, -, -, hdepth, -⟩ := hall s.registry .refl
  exact ⟨o, s, hstep, hget ⟨1⟩, hdepth ⟨1⟩ 4 (Nat.lt_succ_of_le hle)⟩

end Session

end Sdg
