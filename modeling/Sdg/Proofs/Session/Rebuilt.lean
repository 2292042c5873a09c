import Sdg.Proofs.Session.Emptied
import Sdg.Proofs.Session.Handles
import Sdg.Proofs.Session.Termination
import Sdg.Proofs.Twins.Registry
import Sdg.Proofs.Twins.Steps

/-!
# Building again

Where every graph was torn down nothing is left but the shared nodes, and these are as they were
made. So the registry is the twin of one that has been filled with shared nodes and with nothing
else, and a root is built there just as it is built afresh.

Main results:

* `Session.Reachable.apart` — no graph and no other node ever names a shared node;
* `Session.Reachable.rebuilds` — where no graph is left a root comes out as in a fresh session.
-/

namespace Sdg

open Registry

/-! ## Registries with shared nodes alone -/

namespace Registry

variable {r common : Registry}

/-- The nodes that were made are those in the pool. -/
def AllShared (r : Registry) : Prop :=
  ∀ n : NodeId, (∃ v, r.pool.get? v = some n) ↔ n.index < r.nodes.next

theorem AllShared.empty : Registry.empty.AllShared := by
  intro n
  constructor
  · intro hn
    obtain ⟨_, hn⟩ := hn
    cases hn
  · intro hn
    cases hn

theorem AllShared.share (h : r.AllShared) (v : ValueId) : (r.share v).AllShared := by
  unfold Registry.share
  split
  · exact h
  · rename_i hv
    have hpool : ∀ w, (r.giveShared v).pool.get? w =
        if w = v then some r.nextNode else r.pool.get? w :=
      fun w => OrderedMap.get?_insert r.pool v w r.nextNode
    have hnext : (r.giveShared v).nodes.next = r.nodes.next + 1 := Arena.next_push _ _
    intro n
    rw [hnext]
    constructor
    · intro hn
      obtain ⟨w, hw⟩ := hn
      rw [hpool] at hw
      split at hw
      · cases hw
        exact Nat.lt_succ_self _
      · exact Nat.lt_succ_of_lt ((h n).1 ⟨w, hw⟩)
    · intro hn
      rcases Nat.lt_succ_iff_lt_or_eq.1 hn with hlt | heq
      · obtain ⟨w, hw⟩ := (h n).2 hlt
        refine ⟨w, ?_⟩
        -- the value that gets its node had none
        rw [hpool, if_neg, hw]
        rintro rfl
        exact hv (OrderedMap.contains_eq_true_iff.2 ⟨n, hw⟩)
      · refine ⟨v, ?_⟩
        rw [hpool, if_pos rfl]
        exact congrArg (fun i => some (NodeId.mk i)) heq.symm

theorem AllShared.withGlobals (h : r.AllShared) (vs : List ValueId) :
    (r.withGlobals vs).AllShared := by
  induction vs generalizing r with
  | nil => exact h
  | cons v vs ih => exact ih (h.share v)

/-- A registry that was filled with shared nodes finds no graph. -/
theorem lookup?_filled (vs : List ValueId) (f : FunctionId) :
    (Registry.empty.withGlobals vs).lookup? f = none := by
  rw [lookup?_withGlobals]
  rfl

/-- A registry without graphs whose nodes are the shared ones is the twin of one to which nothing
else ever happened. -/
theorem Twin.of_bare (hc : common.graphs = .empty) (hlookup : ∀ f, common.lookup? f = none)
    (hlookup' : ∀ f, r.lookup? f = none) (hpool : r.pool = common.pool)
    (hshared : ∀ n, n.index < common.nodes.next → r.node? n = common.node? n)
    (hrest : ∀ n, common.nodes.next ≤ n.index → r.node? n = none)
    (hnone : ∀ g, r.graph? g = none) (hnext : common.nodes.next ≤ r.nodes.next) :
    common.Twin ⟨common, r.nodes.next - common.nodes.next, r.graphs.next⟩ r where
  -- beyond the shared nodes there is none on either side
  node n n' hn := by
    have hle : common.nodes.next ≤ n'.index := by
      rw [hn.2]
      exact Nat.le_add_right_of_le hn.1
    rw [hrest n' hle, show common.node? n = none from Arena.get?_of_next_le hn.1]
    exact .none
  graph g g' _ := by
    rw [hnone, graph?, hc, Arena.get?_empty]
    exact .none
  lookup? f := by
    rw [hlookup, hlookup']
    exact .none
  exists_node n' x' hx' := by
    refine Or.inl (Nat.lt_of_not_le fun hle => ?_)
    rw [hrest n' hle] at hx'
    cases hx'
  exists_graph g' y' hy' := by
    rw [hnone] at hy'
    cases hy'
  shared n hn := ⟨rfl, hshared n hn⟩
  pool := ⟨rfl, hpool⟩
  nextNode := by
    refine ⟨Nat.le_refl _, ?_⟩
    show r.nodes.next = common.nodes.next + (r.nodes.next - common.nodes.next)
    omega
  nextGraph := by
    show r.graphs.next = common.graphs.next + r.graphs.next
    rw [hc]
    exact (Nat.zero_add _).symm

end Registry

/-- The shared nodes that the module asks for, and nothing is moved. -/
def Shift.still (m : Module) : Shift := ⟨Registry.empty.withGlobals m.globals, 0, 0⟩

/-- A registry that has been filled with shared nodes is its own twin. -/
theorem Registry.Twin.globals (m : Module) : (Registry.empty.withGlobals m.globals).Twin (.still m)
    (Registry.empty.withGlobals m.globals) := by
  have hgraphs := graphs_withGlobals .empty m.globals
  have hlookup := lookup?_filled m.globals
  have htwin := Twin.of_bare hgraphs hlookup hlookup rfl (fun _ _ => rfl)
    (fun n hn => Arena.get?_of_next_le hn) (fun g => by rw [graph?, hgraphs]; exact Arena.get?_empty _) (Nat.le_refl _)
  rwa [Nat.sub_self, hgraphs] at htwin

namespace Session

variable {m : Module} {s s' t t' : Session} {a a' : Step} {o o' : Outcome} {ρ : Shift}
  {Q : Outcome → Outcome → Registry → Registry → Prop}

/-! ## Shared nodes stay apart -/

/-- A step that leaves twins leaves a registry that is its own twin. -/
theorem twin_of_step (hw : Work.Both ρ Q (s.work a) (s.work a) s.registry s.registry)
    (hQ : ∀ o r, Q o o r r → r = .empty ∨ r.Twin ρ r) (h : (s.step a).2 = .ok (o, t)) :
    t.registry = .empty ∨ t.registry.Twin ρ t.registry := by
  have hends : (s.step a).2 ≠ .error .exhausted := by
    rw [h]
    exact nofun
  rcases steps_of_both hw hends hends with ⟨o₁, t₁, o₂, t₂, h₁, h₂, htwin⟩ | ⟨f, _, hf, _⟩
  · rw [h] at h₁ h₂
    cases h₁
    cases h₂
    exact hQ _ _ htwin
  · rw [h] at hf
    cases hf

/-- **The pool.** After the first step that does anything the shared nodes are as they were made,
and no graph and no other node names one. -/
theorem Reachable.apart (hs : Reachable m s) :
    s.registry = .empty ∨ s.registry.Twin (.still m) s.registry := by
  induction hs with
  | start => exact Or.inl rfl
  | @step s t a o hs hstep ih =>
    have hm := hs.steady.1
    have hglobals : (s.registry.withGlobals s.setup.program.globals).Twin (.still m)
        (s.registry.withGlobals s.setup.program.globals) := by
      rw [hm]
      rcases ih with hempty | htwin
      · rw [hempty]
        exact .globals m
      · rwa [withGlobals_eq_self fun v hv => ?_]
        rw [htwin.pool.1]
        exact contains_withGlobals hv
    have hleaves : ∀ o r, Outcome.Leaves (Shift.still m) s.registry s.registry o o r r →
        r = .empty ∨ r.Twin (.still m) r := by
      intro o r ho
      cases ho with
      | nothing htwin => exact Or.inr htwin
      | graph _ htwin => exact Or.inr htwin
      | failed _ htwin =>
        rcases htwin with htwin | ⟨rfl, _⟩
        · exact Or.inr htwin
        · exact ih
    rcases ih with hempty | htwin
    · obtain ⟨e, r⟩ := s
      obtain rfl : r = .empty := hempty
      cases a with
      | root name? => exact twin_of_step (both_root rfl hglobals name?) hleaves hstep
      | getOrBuild f => exact twin_of_step (both_getOrBuild rfl hglobals f) hleaves hstep
      -- a step that is about a graph finds none in a registry where nothing was done
      | retain g => cases hstep
      | destroy g => cases hstep
      | release g | setSettings x | setPointsTo p | setScopes p =>
        cases hstep
        exact Or.inl rfl
    · have hsame : a.Like (Shift.still m) a := .refl (fun _ => (Nat.add_zero _).symm) a
      exact twin_of_step (both_step rfl htwin hglobals hsame) hleaves hstep

/-! ## Roots in sessions without graphs -/

/-- How a root comes out in two sessions: there are graphs that correspond in registries that are
twins, or it is refused with the same error, or both fail in faults that differ in the numbers of
nodes and graphs alone. -/
inductive Rebuilds (ρ : Shift) :
    Except Fault (Outcome × Session) → Except Fault (Outcome × Session) → Prop where
  | built {g g' : GraphId} {t t' : Session} : ρ.Graph g g' → t'.setup = t.setup →
      t.registry.Twin ρ t'.registry → Rebuilds ρ (.ok (.graph g, t)) (.ok (.graph g', t'))
  | refused (x : RootError) {t t' : Session} : t'.setup = t.setup →
      Rebuilds ρ (.ok (.failed x, t)) (.ok (.failed x, t'))
  | fault {f f' : Fault} : f.Twin ρ f' → Rebuilds ρ (.error f) (.error f')

/-- Where no graph is left the registry, once it is filled with shared nodes, is the twin of one
that was filled with them to begin with. -/
theorem Reachable.twin_globals (hs : Reachable m s) (hnone : ∀ g, s.registry.graph? g = none) :
    ∃ ρ : Shift, ρ.common = Registry.empty.withGlobals m.globals ∧
      (Registry.empty.withGlobals m.globals).Twin ρ (s.registry.withGlobals m.globals) := by
  rcases hs.apart with hempty | htwin
  · rw [hempty]
    exact ⟨.still m, rfl, .globals m⟩
  · have hfull : s.registry.withGlobals m.globals = s.registry :=
      withGlobals_eq_self fun v hv => by
        rw [htwin.pool.1]
        exact contains_withGlobals hv
    -- no function is entered without a graph
    have hlookup : ∀ f, s.registry.lookup? f = none := by
      refine fun f => hs.orderly.enrolled.lookup?_eq_none_iff.2 fun g y hy => ?_
      rw [hnone] at hy
      cases hy
    rw [hfull]
    refine ⟨_, rfl, .of_bare (graphs_withGlobals .empty _) (lookup?_filled _) hlookup htwin.pool.1
      (fun n hn => (htwin.shared n hn).1) (fun n hle => ?_) hnone htwin.nextNode.1⟩
    -- a live node is in the pool, and so it was made when the pool was filled
    refine Option.eq_none_iff_forall_ne_some.2 fun x hx => ?_
    have hn := (hs.orderly.live_iff_pool hnone).1 ⟨x, hx⟩
    rw [htwin.pool.1] at hn
    exact Nat.not_lt.2 hle ((AllShared.empty.withGlobals _ n).1 (OrderedMap.mem_values.1 hn))

/-- **Building again.** Where no graph is left, every root comes out as it does in a fresh session
with the same setup, but that the numbers of nodes are moved by one constant and those of graphs by
another. The nodes in the pool alone keep theirs. -/
theorem Reachable.rebuilds (hs : Reachable m s) (hnone : ∀ g, s.registry.graph? g = none) :
    ∃ ρ : Shift, ρ.common = Registry.empty.withGlobals m.globals ∧ ρ.common.AllShared ∧
      ∀ name?, Rebuilds ρ (Session.step ⟨s.setup, .empty⟩ (.root name?)).2
        (s.step (.root name?)).2 := by
  have hm := hs.steady.1
  obtain ⟨ρ, hρ, htwin⟩ := hs.twin_globals hnone
  refine ⟨ρ, hρ, hρ ▸ AllShared.empty.withGlobals _, fun name? => ?_⟩
  have hsetup : s.setup = (⟨s.setup, .empty⟩ : Session).setup := rfl
  rw [← hm] at htwin
  have hboth := both_root (ρ := ρ) hsetup htwin name?
  -- neither build is cut off
  have hends : (Session.step ⟨s.setup, .empty⟩ (.root name?)).2 ≠ .error .exhausted :=
    not_exhausted (root_work (s := ⟨s.setup, .empty⟩) (.empty _) name?)
  have hends' : (s.step (.root name?)).2 ≠ .error .exhausted := hs.construction_ends.1 name?
  rcases steps_of_both hboth hends hends' with ⟨o, t, o', t', h, h', hQ⟩ | ⟨f, f', h, h', hf⟩
  · rw [h, h']
    cases hQ with
    | nothing _ => cases effect (s := ⟨s.setup, .empty⟩) (.empty _) h
    | graph hg ht => exact .built hg rfl ht
    | failed x _ => exact .refused x rfl
  · rw [h, h']
    exact .fault hf.twin

/-- In the small module `main` is built again, with `tick`, after both were torn down. -/
theorem Reachable.rebuilds_of_ticks : ∃ s u ρ g t,
    ((Session.start .ticks).step (.root none)).2 = .ok (.graph ⟨0⟩, s) ∧
      (s.step (.release ⟨0⟩)).2 = .ok (.nothing, u) ∧ (∀ g, u.registry.graph? g = none) ∧
        (u.step (.root none)).2 = .ok (.graph g, t) ∧ Shift.Graph ρ ⟨0⟩ g ∧
          s.registry.Twin ρ t.registry := by
  have hempties : ((Session.start .ticks).step (.root none)).2.toOption.any (fun p =>
      decide (p.1 = .graph ⟨0⟩) && (p.2.step (.release ⟨0⟩)).2.toOption.any fun q =>
        decide (q.1 = .nothing) && q.2.registry.liveGraphs.isEmpty) = true := by decide +kernel
  obtain ⟨⟨o, s⟩, hroot, htest⟩ := exists_ok_of_any hempties
  obtain ⟨ho, htest⟩ := Bool.and_eq_true_iff.1 htest
  obtain ⟨⟨o', u⟩, hrelease, htest⟩ := exists_ok_of_any htest
  obtain ⟨ho', hnone⟩ := Bool.and_eq_true_iff.1 htest
  cases of_decide_eq_true ho
  cases of_decide_eq_true ho'
  have hgraphs : ∀ g, u.registry.graph? g = none := by
    intro g
    refine Option.eq_none_iff_forall_ne_some.2 fun y hy => ?_
    have hmem := mem_liveGraphs.2 hy
    rw [List.isEmpty_iff.1 hnone] at hmem
    cases hmem
  have hu : Reachable .ticks u := .step (.step .start hroot) hrelease
  have hsetup : u.setup = .standard .ticks := by
    rw [setup_of_step hrelease, setup_of_step hroot]
    rfl
  obtain ⟨ρ, _, _, hall⟩ := hu.rebuilds hgraphs
  have hrebuilds : Rebuilds ρ ((Session.start .ticks).step (.root none)).2
      (u.step (.root none)).2 := by
    have hfresh := hall none
    rwa [hsetup] at hfresh
  rw [hroot] at hrebuilds
  generalize hagain : (u.step (.root none)).2 = again at hrebuilds
  cases hrebuilds with
  | built hg _ htwin => exact ⟨s, u, ρ, _, _, hroot, hrelease, hgraphs, hagain, hg, htwin⟩

end Session

end Sdg
