import Mathlib.Order.WellFoundedSet
import Sdg.Proofs.Session.Control
import Sdg.Proofs.Session.Coverage
import Sdg.Proofs.Session.Integrity
import Sdg.Proofs.Session.Teardown

/-!
# Programs without recursion

A root holds the graph of its function, and every other graph is held by its callers alone. All of
them can be reached from the root by links. Where the links form no cycle they can be gone through
in an order in which each graph comes after those that call it; so when the root is given back and
torn down, all callers of a graph go before it, and it goes with the last of them.

Main result:

* `Session.release_root_empties` — giving back the root of a program without recursion leaves the
  shared nodes of the globals and nothing else.
-/

namespace Sdg

open Registry Relation

open scoped Classical

namespace Registry

variable {m : Module} {e : Setup} {r t : Registry} {n : NodeId} {g h : GraphId} {y : Graph}
  {D : Set GraphId}

/-! ## The order of links -/

theorem finite_graphs (r : Registry) : {g | ∃ y, r.graph? g = some y}.Finite := by
  refine (List.finite_toSet (r.liveGraphs.map Prod.fst)).subset fun g hg => ?_
  exact mem_graphNames.2 hg

/-- Where links form no cycle, what holds of a graph whenever it holds of the graphs that are linked
to it holds of all graphs. -/
theorem Orderly.link_induction (hr : r.Orderly m) (hacyclic : ∀ h, ¬ TransGen r.Links h h)
    {P : GraphId → Prop}
    (hP : ∀ h y, r.graph? h = some y → (∀ k, r.Links k h → P k) → P h)
    (hy : r.graph? h = some y) : P h := by
  have horder : IsStrictOrder GraphId (TransGen r.Links) :=
    { irrefl := hacyclic, trans := fun _ _ _ => TransGen.trans }
  refine r.finite_graphs.wellFoundedOn.induction (r := TransGen r.Links) ⟨y, hy⟩ fun k hk ih => ?_
  obtain ⟨z, hz⟩ := hk
  refine hP k z hz fun i hi => ?_
  obtain ⟨c, ho, hc⟩ := hi
  exact ih i (hr.live_of_ownedBy ho) (.single ⟨c, ho, hc⟩)

/-- Where links form no cycle and each other graph is held by its callers, of which it has some, all
graphs fall with `g`. -/
theorem Falls.mem_of_acyclic (hr : r.Orderly m) (hacyclic : ∀ h, ¬ TransGen r.Links h h)
    (hheld : ∀ h y, h ≠ g → r.graph? h = some y →
      y.refcount = y.callers.size ∧ ∃ c, c ∈ y.callers)
    (hD : r.Falls g D) (hy : r.graph? h = some y) : h ∈ D := by
  refine hr.link_induction hacyclic (P := (· ∈ D)) (fun h y hy ih => ?_) hy
  by_cases hh : h = g
  · exact hh ▸ hD.start
  obtain ⟨hcount, c, hc⟩ := hheld h y hh hy
  -- all callers belong to graphs that fall
  have hall : y.callers.filter (fun c => decide (∃ k ∈ D, r.OwnedBy c k)) = y.callers := by
    refine OrderedSet.filter_eq_self fun c hc => ?_
    have hcalls := (hr.mirrored.calls c h).2 ⟨y, hy, hc⟩
    obtain ⟨k, _, ho, _⟩ := hr.owner hcalls
    exact decide_eq_true ⟨k, ih k ⟨c, ho, hcalls⟩, ho⟩
  have hpos : y.callers.size ≠ 0 := fun h0 => OrderedSet.size_eq_zero.1 h0 c hc
  refine hD.step h y hy (by omega) ?_
  rw [ncard_callsFrom hr.mirrored hy, hall, hcount]

/-! ## Registries without graphs -/

theorem liveGraphs_eq_nil (hn : ∀ g, r.graph? g = none) : r.liveGraphs = [] := by
  refine List.eq_nil_iff_forall_not_mem.2 fun p hp => ?_
  have hy : r.graph? p.1 = some p.2 := mem_liveGraphs.1 hp
  rw [hn] at hy
  cases hy

/-- Where there are no graphs the live nodes are the shared ones. -/
theorem Orderly.live_iff_pool (hr : r.Orderly m) (hn : ∀ g, r.graph? g = none) :
    (∃ x, r.node? n = some x) ↔ n ∈ r.pool.values := by
  have hinv : r.inventory = r.pool.values := by
    rw [inventory, liveGraphs_eq_nil hn, List.flatMap_nil, List.append_nil]
  rw [← hinv, hr.mem_inventory_iff]
  constructor
  · intro hx
    obtain ⟨x, hx⟩ := hx
    exact hr.housed.full n x hx
  · intro hp
    obtain ⟨p, hp⟩ := hp
    obtain ⟨x, hx, _⟩ := hr.housed.live p n hp
    exact ⟨x, hx⟩

theorem Orderly.nodeCount_eq_pool (hr : r.Orderly m) (hn : ∀ g, r.graph? g = none) :
    r.nodeCount = r.pool.size := by
  rw [hr.nodeCount_eq, liveGraphs_eq_nil hn]
  rfl

/-- A pool with a node for each of these values has as many nodes as there are different ones. -/
theorem pool_size_eq {vs : List ValueId}
    (h : ∀ v, (∃ n, r.pool.get? v = some n) ↔ v ∈ vs) : r.pool.size = vs.dedup.length := by
  have hperm : r.pool.keys.Perm vs.dedup := by
    refine (List.perm_ext_iff_of_nodup r.pool.nodup_keys (List.nodup_dedup vs)).2 fun v => ?_
    rw [List.mem_dedup, ← h]
    exact OrderedMap.mem_keys
  rw [← hperm.length_eq, OrderedMap.keys, List.length_map, OrderedMap.size]

end Registry

/-! ## Roots -/

variable {e : Setup}

/-- Every live graph can be reached by links from the graph of a function that was asked for. -/
theorem Account.reached {log : List Entry} {s : Session} (h : Account e log s) {g : GraphId}
    {f : FunctionId} (hg : s.registry.Hosts g f) :
    ∃ k ∈ asked e log, ∃ i, s.registry.Hosts i k ∧ ReflTransGen s.registry.Links i g := by
  obtain ⟨k, hk, hreach⟩ := h.rooted g f hg
  obtain ⟨i, hi⟩ := h.served k hk
  refine ⟨k, hk, i, hi, ?_⟩
  -- along the functions that lead there each graph is linked to the next one
  have hall : ∀ f, ReflTransGen e.Runs k f →
      ∃ j, s.registry.Hosts j f ∧ ReflTransGen s.registry.Links i j := by
    intro f hreach
    induction hreach with
    | refl => exact ⟨i, hi, .refl⟩
    | tail _ hruns ih =>
      obtain ⟨j, ⟨y, hy, rfl⟩, hij⟩ := ih
      obtain ⟨l, hl, hosts⟩ := (h.covered j y hy).served _ hruns
      exact ⟨l, hosts, hij.tail hl⟩
  obtain ⟨j, ⟨z, hz, hf⟩, hij⟩ := hall f hreach
  obtain ⟨y, hy, hf'⟩ := hg
  have hjg := h.steady.orderly.enrolled.distinct hz hy (hf.trans hf'.symm)
  exact hjg ▸ hij

namespace Session

variable {name? : Option String} {g : GraphId} {t : Session}

/-- A root that was asked for first is the graph of its function. It is held once more than it is
called, and the other graphs are held by their callers. -/
theorem root_of_fresh (h : (step ⟨e, .empty⟩ (.root name?)).2 = .ok (.graph g, t)) :
    (∀ k y, t.registry.graph? k = some y →
      y.refcount = y.callers.size + if k = g then 1 else 0) ∧
    ∃ f, e.program.functionNamed? (name?.getD e.settings.entry) = some f ∧
      t.registry.Hosts g f := by
  have heffect : Registry.Effect e .empty (.root name?) (.graph g) t.registry :=
    Session.effect (.empty e.program) h
  generalize t.registry = r at heffect
  cases heffect with
  | held hroots =>
    cases hroots with
    | @held f _ s hname hev hosts =>
      constructor
      · intro k y hy
        rw [graph?_reviseGraph] at hy
        by_cases hk : k = g
        · rw [if_pos hk] at hy ⊢
          obtain ⟨z, hz, rfl⟩ := Option.map_eq_some_iff.1 hy
          -- all graphs are new, and a new graph is counted by its callers
          obtain ⟨_, _, hcount⟩ := hev.fresh k z rfl hz
          exact congrArg (· + 1) hcount
        · rw [if_neg hk] at hy ⊢
          obtain ⟨_, _, hcount⟩ := hev.fresh k y rfl hy
          exact hcount
      · have hiff := hosts_reviseGraph (r := s) (g := g)
          (f := fun y => { y with refcount := y.refcount + 1 }) (k := f) (i := g) fun _ => rfl
        exact ⟨f, hname, hiff.2 hosts⟩

/-- With the first root the pool has a node for each global. -/
theorem pool_of_root (h : (step ⟨e, .empty⟩ (.root name?)).2 = .ok (.graph g, t)) (v : ValueId) :
    (∃ n, t.registry.pool.get? v = some n) ↔ v ∈ e.program.globals := by
  have hwork : Work.wp Fault.Any (work ⟨e, .empty⟩ (.root name?)) (fun o s => ∀ g, o = .graph g →
      ∀ v, (∃ n, s.pool.get? v = some n) ↔ v ∈ e.program.globals) .empty := by
    refine Work.wp_bind (Work.constructRoot_wired (.empty _)
      (.empty _ _ : Registry.empty.Wired e.program e.settings.phiControl ∅ ∅) _) ?_
    intro root? r hpost
    cases root? with
    | error x => exact Work.wp_pure nofun
    | ok g =>
      refine Work.wp_pure fun _ _ v => (hpost.2 g rfl v).trans ?_
      -- nothing was in the pool before
      refine or_iff_right ?_
      intro hp
      obtain ⟨_, hn⟩ := hp
      cases hn
  exact of_step hwork h g rfl v

/-- **No recursion.** Where a root of a fresh session is there and no graph is linked to itself, on
whatever way, giving it back tears down every graph. What is left are the shared nodes, one for each
global of the module. -/
theorem release_root_empties
    (h : (step ⟨e, .empty⟩ (.root name?)).2 = .ok (.graph g, t))
    (hacyclic : ∀ h, ¬ TransGen t.registry.Links h h) :
    ∃ u, (t.step (.release g)).2 = .ok (.nothing, u) ∧
      (∀ f, u.registry.lookup? f = none) ∧ u.registry.graphCount = 0 ∧
      (∀ n, (∃ x, u.registry.node? n = some x) ↔ n ∈ u.registry.pool.values) ∧
      (∀ v, (∃ n, u.registry.pool.get? v = some n) ↔ v ∈ e.program.globals) ∧
      u.registry.nodeCount = e.program.globals.dedup.length := by
  have hrun : Run ⟨e, .empty⟩ [⟨.root name?, .graph g, t⟩] t := .cons .nil h
  have hacc := hrun.account fun x hx => by
    rw [List.mem_singleton.1 hx]
    exact .root name?
  have hr := hacc.steady.orderly
  obtain ⟨hcount, f, hname, y, hy, hf⟩ := root_of_fresh h
  -- every graph can be reached from the root
  have hreached : ∀ k y, t.registry.graph? k = some y → ReflTransGen t.registry.Links g k := by
    intro k z hz
    obtain ⟨f', ⟨x, hx, hasks⟩, i, ⟨w, hw, hf'⟩, hik⟩ := hacc.reached ⟨z, hz, rfl⟩
    rw [List.mem_singleton.1 hx] at hasks
    -- there was one function to ask for
    cases hasks with
    | root hname' =>
      rw [hname] at hname'
      cases hname'
      have hig := hr.enrolled.distinct hw hy (hf'.trans hf.symm)
      exact hig ▸ hik
  -- so nothing calls the root, which is held once
  have huncalled : ∀ c, c ∉ y.callers := by
    intro c hc
    have hcalls := (hr.mirrored.calls c g).2 ⟨y, hy, hc⟩
    obtain ⟨k, z, ho, hz⟩ := hr.owner hcalls
    exact hacyclic g (.tail' (hreached k z hz) ⟨c, ho, hcalls⟩)
  have hone : y.refcount = 1 := by
    rw [hcount g y hy, if_pos rfl, OrderedSet.size_eq_zero.2 huncalled]
  obtain ⟨D, u, hstep, hD, hrem⟩ := step_release_last hr hy hone
  have hfalls : ∀ k z, t.registry.graph? k = some z → k ∈ D := by
    intro k z hz
    refine Falls.mem_of_acyclic hr hacyclic (fun k z hk hz => ⟨?_, ?_⟩) hD.1 hz
    · rw [hcount k z hz, if_neg hk, Nat.add_zero]
    · rcases (hreached k z hz).cases_tail with hkg | ⟨i, _, c, _, hc⟩
      · exact absurd hkg hk
      · obtain ⟨z', hz', hmem⟩ := (hr.mirrored.calls c k).1 hc
        rw [hz] at hz'
        cases hz'
        exact ⟨c, hmem⟩
  have hnone : ∀ k, u.graph? k = none := by
    intro k
    refine Option.eq_none_iff_forall_ne_some.2 fun z hz => ?_
    obtain ⟨hk, z, hz, _⟩ := hrem.graph?_iff.1 hz
    exact hk (hfalls k z hz)
  have hu := hrem.orderly hr hD.1
  have hpool : ∀ v, (∃ n, u.pool.get? v = some n) ↔ v ∈ e.program.globals := by
    intro v
    rw [hrem.pool]
    exact pool_of_root h v
  refine ⟨⟨t.setup, u⟩, hstep, fun f => ?_, ?_, fun n => hu.live_iff_pool hnone, hpool, ?_⟩
  · refine Option.eq_none_iff_forall_ne_some.2 fun k hk => ?_
    obtain ⟨z, hz, _⟩ := hu.enrolled.hosts hk
    rw [hnone] at hz
    cases hz
  · show u.graphCount = 0
    rw [hu.enrolled.graphCount_eq, liveGraphs_eq_nil hnone]
    rfl
  · exact (hu.nodeCount_eq_pool hnone).trans (pool_size_eq hpool)

/-- In the small module `tick` calls nothing, so giving back `main` leaves the one global. -/
theorem release_root_empties_of_ticks : ∃ s u,
    ((Session.start .ticks).step (.root none)).2 = .ok (.graph ⟨0⟩, s) ∧
      (s.step (.release ⟨0⟩)).2 = .ok (.nothing, u) ∧ u.registry.graphCount = 0 ∧
        u.registry.nodeCount = 1 := by
  -- each link goes to a graph that was made later
  have hlater : ((Session.start .ticks).step (.root none)).2.toOption.any (fun p =>
      decide (p.1 = .graph ⟨0⟩) && p.2.registry.liveNodes.all fun q =>
        q.2.callees.toList.all fun h => q.2.graph?.all fun g => decide (g.index < h.index)) =
          true := by decide +kernel
  obtain ⟨⟨o, s⟩, hstep, htest⟩ := exists_ok_of_any hlater
  obtain ⟨ho, hlinks⟩ := Bool.and_eq_true_iff.1 htest
  cases of_decide_eq_true ho
  have hlt : ∀ i k, s.registry.Links i k → i.index < k.index := by
    intro i k hl
    obtain ⟨c, ⟨x, hx, hi⟩, x', hx', hk⟩ := hl
    rw [hx] at hx'
    cases hx'
    have hall := List.all_eq_true.1 (List.all_eq_true.1 hlinks (c, x) (mem_liveNodes.2 hx)) k hk
    simpa [hi] using hall
  have hacyclic : ∀ k, ¬ TransGen s.registry.Links k k := by
    intro k hk
    have hindex : TransGen (fun i j : Nat => i < j) k.index k.index :=
      hk.lift GraphId.index hlt
    exact Nat.lt_irrefl _ (transGen_eq_self (r := fun i j : Nat => i < j) ▸ hindex)
  obtain ⟨u, hrelease, _, hgraphs, _, _, hnodes⟩ := release_root_empties hstep hacyclic
  exact ⟨s, u, hstep, hrelease, hgraphs, hnodes⟩

end Session

end Sdg
