import Sdg.Proofs.Safety.Builds

/-!
# Complete registries

Between two steps of a session no body is under way. All graphs are whole then, and what builds and
what tears down keeps them so: a build completes the graphs that it makes, and a graph that survives
a teardown has all nodes of its body still, since these are its own.

Main results:

* `Registry.Complete.advance`, `Registry.Complete.remains` — a complete registry stays so;
* `getOrBuild_complete`, `constructRoot_complete` — so it does when a graph is asked for, and a
  root of a function with a body is not refused.
-/

namespace Sdg

open Registry

open scoped Classical

namespace Registry

/-- All graphs are whole, and what a part of a build may rely on holds. -/
structure Complete (m : Module) (r : Registry) : Prop where
  orderly : r.Orderly m
  whole : ∀ g y, r.graph? g = some y → Whole m r g y
  known : m.IsClosed → r.Known m

variable {m : Module} {e : Setup} {r s t : Registry} {g : GraphId} {y : Graph} {D : Set GraphId}

theorem Complete.empty (m : Module) : Registry.empty.Complete m where
  orderly := .empty m
  whole _ _ h := nomatch h
  known _ _ _ _ _ h := nomatch h

theorem Complete.fit (hr : r.Complete m) : r.Fit m where
  orderly := hr.orderly
  ready g y hy := (hr.whole g y hy).draft.ready
  known := hr.known

/-- A part of a build makes new graphs whole and spares the bodies of the others. -/
theorem Complete.advance (hr : r.Complete e.program) (hc : Changes e r s)
    (h : Advances e.program r s) : s.Complete e.program where
  orderly := hr.orderly.changes hc
  whole g y' hy' := by
    cases hy : r.graph? g with
    | none => exact h.whole g (Set.notMem_empty g) y' hy hy'
    | some y =>
      obtain ⟨z, hz, hb⟩ := h.exists_graph hy
      rw [hy'] at hz
      cases hz
      exact (hr.whole g y hy).frame h.grows hb
  known hm := (hr.known hm).changes hm hc

/-- So it does where only references are counted. -/
theorem Complete.recount {k : Nat → Nat} (hr : r.Complete e.program)
    (hk : ∀ y, r.graph? g = some y → k y.refcount = 0 → ∀ c, c ∉ y.callers) :
    (r.reviseGraph g fun y => { y with refcount := k y.refcount }).Complete e.program := by
  have hquiet : Quiet e.program r (r.reviseGraph g fun y => { y with refcount := k y.refcount }) :=
    .recount hk
  exact hr.advance (.single (.quiet hquiet))
    (.reviseGraph hquiet.grows fun _ _ _ => .of_units rfl rfl rfl rfl rfl rfl rfl)

/-- What no node, no graph, no lookup and no pool shows may change. -/
theorem Complete.unseen (hr : r.Complete e.program) (hn : s.node? = r.node?)
    (hg : s.graph? = r.graph?) (hp : s.pool = r.pool) (hf : s.lookup? = r.lookup?) :
    s.Complete e.program := by
  have hquiet : Quiet e.program r s := .unseen hn hg hp hf
  exact hr.advance (.single (.quiet hquiet)) (.of_graphs hquiet.grows fun k => by rw [hg])

/-! ## Teardown -/

/-- A node of a graph that is left has what it had, but for edges and links to what is gone. -/
theorem Remains.exists_node (hr : r.Orderly m) (hrem : r.Remains D t) (hg : g ∉ D) {n : NodeId}
    {x : Node} (hx : r.node? n = some x) (hxg : x.graph? = some g) :
    t.node? n = some (x.without (r.nodesOf D) D) :=
  hrem.node?_iff.2 ⟨Remains.not_mem_nodesOf hr ⟨x, hx, hxg⟩ hg, x, hx, rfl⟩

end Registry

/-- A graph that survives a teardown is whole still. -/
theorem Whole.remains {m : Module} {r t : Registry} {g : GraphId} {y : Graph} {D : Set GraphId}
    (hr : r.Orderly m) (hrem : r.Remains D t) (hg : g ∉ D) (hy : r.graph? g = some y)
    (h : Whole m r g y) (k : Nat) :
    Whole m t g (y.without (r.nodesOf D) k) := by
  have hbody : y.SameBody (y.without (r.nodesOf D) k) := .of_units rfl rfl rfl rfl rfl rfl rfl
  have hunit : ∀ c, (y.without (r.nodesOf D) k).unit? c = y.unit? c := by
    intro c
    cases c <;> rfl
  refine ⟨⟨h.draft.ready.of_sameBody hbody, fun i hi => ?_, fun c u hu => ?_, fun c u hu n hn => ?_,
    fun c u hu n hn _ => ?_, fun a b label hl => ?_⟩, h.exit, ?_⟩
  · rw [hunit]
    exact h.draft.exit i hi
  · exact h.draft.filled c u (hunit c ▸ hu)
  · obtain ⟨x, hx, hb, hxg⟩ := h.draft.placed c u (hunit c ▸ hu) n hn
    exact ⟨_, hrem.exists_node hr hg hx hxg, hb, hxg⟩
  · obtain ⟨x, hx, _, hxg⟩ := h.draft.placed c u (hunit c ▸ hu) n hn
    obtain ⟨x', op?, hx', hop, hret⟩ := h.draft.finished c u (hunit c ▸ hu) n hn nofun
    rw [hx] at hx'
    cases hx'
    refine ⟨_, op?, hrem.exists_node hr hg hx hxg, hop, fun v? hv => ?_⟩
    obtain ⟨i, hi, hmem⟩ := hret v? hv
    -- the exit is a node of the same graph
    obtain ⟨key, hkey⟩ := (hr.shaped g y hy).exit i hi
    obtain ⟨z, hz, _, hzg⟩ := hr.housed.live (.index g key) i (by simp [occupant, hy, hkey])
    have hkept := Remains.not_mem_nodesOf hr ⟨z, hz, hzg⟩ hg
    exact ⟨i, hi, OrderedSet.mem_filter.2 ⟨hmem, by simpa using hkept⟩⟩
  · exact h.draft.labelled a b label (hbody.leads_iff.1 hl)
  · obtain ⟨u, hu⟩ := h.first
    exact hbody.symm.entryUnit? hu

theorem Registry.Complete.remains {m : Module} {r t : Registry} {g : GraphId} {D : Set GraphId}
    (hr : r.Complete m) (hD : r.Falls g D) (hrem : r.Remains D t) :
    t.Complete m where
  orderly := hrem.orderly hr.orderly hD
  whole k y' hy' := by
    obtain ⟨hk, y, hy, rfl⟩ := hrem.graph?_iff.1 hy'
    exact (hr.whole k y hy).remains hr.orderly hrem hk hy _
  known hm k y' v q hy' hq := by
    obtain ⟨_, y, hy, rfl⟩ := hrem.graph?_iff.1 hy'
    exact hr.known hm k y v q hy hq

namespace Work

variable {e : Setup} {r : Registry} {f : FunctionId}

/-! ## What is asked for -/

/-- The pool is filled without a fault. -/
theorem addGlobals_spares (hr : r.Orderly e.program) :
    wp e.Blames (addGlobals e.program) (fun _ s => Spares e r s) r := by
  unfold addGlobals
  refine wp_bind (wp_forIn (fun _ _ s => Spares e r s) (.refl e r) ?_) fun _ _ hs => wp_pure hs
  intro done v rest _ s _ hs
  refine wp_registry ?_
  -- each global gets one node
  cases hv : s.pool.contains v with
  | true => exact wp_pure ⟨_, rfl, hs⟩
  | false =>
    have hshared : Evolves e s (s.giveShared v) :=
      .shared (hs.evolves.orderly hr) (OrderedMap.contains_eq_false_iff.1 hv)
    refine wp_newNode (wp_modifyRegistry (wp_pure ⟨_, rfl, hs.trans ⟨hshared, ?_⟩⟩))
    exact .of_graphs hshared.grows fun _ => rfl

/-- The graph of a function with a body can be asked for. -/
theorem getOrBuild_complete (hr : r.Complete e.program) (hdef : e.Sane → e.program.Defines f) :
    wp e.Blames (getOrBuild e f) (fun _ s => s.Complete e.program) r := by
  unfold getOrBuild
  refine wp_bind (addGlobals_spares hr.orderly) ?_
  intro _ s hs
  have hso := hr.advance hs.evolves.changes hs.advances
  refine wp_mono (wp_and (request_spec hso.orderly) (request_advances hso.fit hdef)) ?_
  intro _ t hpost
  exact hso.advance hpost.1.1.changes hpost.2

/-- For a function without a body there is no graph to be made: one that is there is given out, or
the request ends in a fault. -/
theorem getOrBuild_undefined (hr : r.Orderly e.program) (hdef : ¬ e.program.Defines f) :
    wp Fault.Genuine (getOrBuild e f) (fun _ s => Spares e r s) r := by
  unfold getOrBuild
  refine wp_bind (wp_fault (addGlobals_spares hr) fun _ => And.left) ?_
  intro _ s hs
  unfold Work.request
  rw [requestWithin_succ]
  unfold requestRound
  refine wp_registry ?_
  cases hf : s.lookup? f with
  | some g => exact wp_pure hs
  | none =>
    have hg : (s.pushGraph (.fresh f)).graph? s.nextGraph = some (.fresh f) := by simp
    refine wp_newGraph hf (wp_bind (P := fun isBuilt _ => isBuilt = false) ?_ ?_)
    · unfold buildWith
      refine wp_graph_live hg (wp_ask (fun x hx => ?_) nofun)
      split
      · exact wp_pure rfl
      · rename_i hundef
        exact absurd ⟨x, hx, by simpa using hundef⟩ hdef
    · intro isBuilt t ht
      subst ht
      exact wp_ask (fun _ _ => wp_throw_bind nofun) nofun

/-- **Roots.** A root can be asked for, and if its function has a body it is not refused. -/
theorem constructRoot_complete (hr : r.Complete e.program) (name : String) :
    wp e.Blames (constructRoot e name) (fun root? s => s.Complete e.program ∧
      ∀ f, e.program.functionNamed? name = some f → e.program.Defines f →
        ∃ g, root? = .ok g) r := by
  unfold constructRoot
  split
  · rename_i hname
    refine wp_report (wp_pure ⟨hr, fun f hf => ?_⟩)
    rw [hname] at hf
    cases hf
  rename_i f hname
  refine wp_bind (addGlobals_spares hr.orderly) ?_
  intro _ s hs
  have hso := hr.advance hs.evolves.changes hs.advances
  refine wp_registry ?_
  cases hf : s.lookup? f with
  | some g =>
    obtain ⟨y, hy, _⟩ := hso.orderly.enrolled.hosts hf
    refine wp_bind (P := fun _ t => t.Complete e.program) ?_ fun _ t ht =>
      wp_pure ⟨ht, fun _ _ _ => ⟨g, rfl⟩⟩
    refine wp_last (wp_updateGraph_live hy (wp_pure ?_))
    -- one more reference is no reason to fall
    exact hso.recount (k := fun n => n + 1) fun _ _ h0 => absurd h0 (Nat.succ_ne_zero _)
  | none =>
    have hpush : Quiet e.program s (s.pushGraph (.fresh f)) := .graph hf
    have hpushed := hso.orderly.change (.quiet hpush)
    have hg : (s.pushGraph (.fresh f)).graph? s.nextGraph = some (.fresh f) := by simp
    have hpending : f.index < e.program.functions.size →
        (s.pushGraph (.fresh f)).pending e.program < e.program.functions.size + 1 := by
      intro _
      have hle := (s.pushGraph (.fresh f)).pending_le e.program
      omega
    have hdel : Delivers e (e.program.functions.size + 1) (Work.request e) :=
      fun _ _ hr _ hdef => request_advances hr hdef
    refine wp_report (wp_newGraph hf (wp_bind (wp_and
      (buildWith_spec (requests e _) hpushed hg hpending)
      (buildWith_advances (requests e _) hdel hso.fit hf hpending
        fun _ => Module.exists_function_of_named hname)) ?_))
    intro isBuilt t hpost
    obtain ⟨⟨hfalse, htrue⟩, hadv, hundef⟩ := hpost
    cases isBuilt with
    | true =>
      have hchanges : Changes e s t := .head (.quiet hpush) (htrue rfl).changes
      exact wp_registry (wp_report (wp_pure
        ⟨hso.advance hchanges (hadv rfl), fun _ _ _ => ⟨s.nextGraph, rfl⟩⟩))
    | false =>
      -- the graph of a declaration is torn down again, and nothing of it is left
      have ht := hfalse rfl
      subst ht
      refine wp_bind (wp_fault (destroy_fresh_spec hso.orderly hf) fun _ => False.elim) ?_
      intro _ u hu
      refine wp_pure ⟨hso.unseen hu.node? hu.graph hu.pool hu.lookup, fun f' hf' hdef => ?_⟩
      rw [hname] at hf'
      cases hf'
      exact absurd hdef (hundef rfl)

end Work

end Sdg
