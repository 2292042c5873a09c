import Mathlib.Data.Set.Card
import Mathlib.Order.Bounds.Basic
import Sdg.Proofs.Teardown.Progress

/-!
# Which graphs fall

A teardown takes a graph with it when the calls of the graphs that go hold all references to it.
`Registry.Falls` is that closure, told of sets of graphs and not of an order of work. A teardown in
the middle is `Sound` if it opened no graph and freed no node that it need not, and `Held` if it
left no standing graph without references; then it has opened exactly the least set when all that
it opened is done.

Main results:

* `Progress.Sound.forced` — a graph whose last reference was given back is in every set that falls;
* `Progress.isLeast` — what a completed teardown opened is the least set that falls.
-/

namespace Sdg

open scoped Classical

theorem OrderedSet.ncard_setOf_mem {α : Type} (s : OrderedSet α) : {a | a ∈ s}.ncard = s.size := by
  have hset : {a | a ∈ s} = (s.toList.toFinset : Set α) := by
    ext a
    simp [OrderedSet.mem_def]
  rw [hset, Set.ncard_coe_finset, List.toFinset_card_of_nodup s.nodup]
  rfl

namespace Registry

/-- The calls of graphs in `S` that are linked to the graph `h`. -/
def callsFrom (r : Registry) (S : Set GraphId) (h : GraphId) : Set NodeId :=
  {c | r.Calls c h ∧ ∃ g ∈ S, r.OwnedBy c g}

/-- The graph `g` goes, and a graph goes when the calls of those that go hold all references to it.
A graph without references was left standing by intent. -/
structure Falls (r : Registry) (g : GraphId) (S : Set GraphId) : Prop where
  start : g ∈ S
  step : ∀ h y, r.graph? h = some y → 1 ≤ y.refcount → y.refcount ≤ (r.callsFrom S h).ncard → h ∈ S

variable {r : Registry} {h : GraphId} {y : Graph} {S : Set GraphId}

/-- The calls of graphs in `S` are those among the callers that graphs in `S` own. -/
theorem ncard_callsFrom (hm : r.Mirrored) (hy : r.graph? h = some y) (S : Set GraphId) :
    (r.callsFrom S h).ncard = (y.callers.filter fun c => ∃ g ∈ S, r.OwnedBy c g).size := by
  have hset : r.callsFrom S h = {c | c ∈ y.callers.filter fun c => ∃ g ∈ S, r.OwnedBy c g} := by
    ext c
    have hcalls : r.Calls c h ↔ c ∈ y.callers := by
      rw [hm.calls c h]
      simp [CalledBy, hy]
    simp [callsFrom, hcalls]
  rw [hset, OrderedSet.ncard_setOf_mem]

end Registry

namespace Progress

open Registry

/-! ## What has happened, happened for a reason -/

/-- The teardown that began with the graph `g` did nothing that it need not do. -/
structure Sound (r : Registry) (g : GraphId) (p : Progress) : Prop where
  live : ∀ h ∈ p.opened, ∃ y, r.graph? h = some y
  gone : p.gone ⊆ p.opened
  /-- Nodes are freed with their graphs. -/
  owned : ∀ n ∈ p.freed, ∃ k ∈ p.opened, r.OwnedBy n k
  /-- Links are given back by calls of graphs that go. -/
  links : ∀ c h, (c, h) ∈ p.cut → r.Calls c h ∧ ∃ k ∈ p.opened, r.OwnedBy c k
  /-- Graphs go that have to. -/
  least : ∀ S, r.Falls g S → p.opened ⊆ S

/-- A standing graph with callers has references left. -/
def Held (r : Registry) (p : Progress) : Prop :=
  ∀ h y c, h ∉ p.opened → r.graph? h = some y → c ∈ y.callers → (p.lost h y).size < y.refcount

variable {p q : Progress} {r : Registry} {g h k : GraphId} {c n : NodeId} {y : Graph}

theorem Sound.start (r : Registry) (g : GraphId) : Progress.start.Sound r g where
  live _ hh := hh.elim
  gone := Set.empty_subset _
  owned _ hn := hn.elim
  links _ _ hc := hc.elim
  least _ _ := Set.empty_subset _

theorem Sound.withGraph (hs : p.Sound r g) (hy : r.graph? k = some y)
    (hk : ∀ S, r.Falls g S → k ∈ S) : (p.withGraph k).Sound r g where
  live h hh := by
    rcases hh with rfl | hh
    · exact ⟨y, hy⟩
    · exact hs.live h hh
  gone _ hh := Or.inr (hs.gone hh)
  owned n hn := by
    obtain ⟨j, hj, ho⟩ := hs.owned n hn
    exact ⟨j, Or.inr hj, ho⟩
  links c h hc := by
    obtain ⟨hcalls, j, hj, ho⟩ := hs.links c h hc
    exact ⟨hcalls, j, Or.inr hj, ho⟩
  least S hS := Set.insert_subset (hk S hS) (hs.least S hS)

theorem Sound.withLink (hs : p.Sound r g) (hc : r.Calls c h) (hk : k ∈ p.opened)
    (ho : r.OwnedBy c k) : (p.withLink c h).Sound r g where
  live := hs.live
  gone := hs.gone
  owned := hs.owned
  links c' h' hcut := by
    rcases hcut with hcut | hcut
    · obtain ⟨rfl, rfl⟩ := Prod.mk.injEq _ _ _ _ ▸ hcut
      exact ⟨hc, k, hk, ho⟩
    · exact hs.links c' h' hcut
  least := hs.least

theorem Sound.withNode (hs : p.Sound r g) (hk : k ∈ p.opened) (ho : r.OwnedBy n k) :
    (p.withNode n).Sound r g where
  live := hs.live
  gone := hs.gone
  owned n' hn := by
    rcases hn with rfl | hn
    · exact ⟨k, hk, ho⟩
    · exact hs.owned n' hn
  links := hs.links
  least := hs.least

theorem Sound.withoutGraph (hs : p.Sound r g) (hk : k ∈ p.opened) :
    (p.withoutGraph k).Sound r g where
  live := hs.live
  gone := Set.insert_subset hk hs.gone
  owned := hs.owned
  links := hs.links
  least := hs.least

/-- The callers that have given back their links belong to graphs that go. -/
theorem Sound.size_lost_le (hs : p.Sound r g) (hm : r.Mirrored) (hy : r.graph? h = some y)
    {S : Set GraphId} (hS : p.opened ⊆ S) : (p.lost h y).size ≤ (r.callsFrom S h).ncard := by
  rw [ncard_callsFrom hm hy]
  -- each of them gave its link back, which only calls of graphs that go do
  have hsub : (p.lost h y).toList ⊆
      (y.callers.filter fun c => ∃ g ∈ S, r.OwnedBy c g).toList := by
    intro c hc
    obtain ⟨hcy, hcut⟩ := OrderedSet.mem_filter.1 hc
    obtain ⟨_, k, hk, ho⟩ := hs.links c h (by simpa using hcut)
    exact OrderedSet.mem_filter.2 ⟨hcy, by simpa using ⟨k, hS hk, ho⟩⟩
  exact ((p.lost h y).nodup.subperm hsub).length_le

/-- A graph whose last reference was given back is in every set that falls. -/
theorem Sound.forced (hs : p.Sound r g) (hm : r.Mirrored) (hy : r.graph? h = some y)
    (hpos : 1 ≤ y.refcount) (hle : y.refcount ≤ (p.lost h y).size) {S : Set GraphId}
    (hS : r.Falls g S) : h ∈ S := by
  have hlost := hs.size_lost_le hm hy (hs.least S hS)
  exact hS.step h y hy hpos (hle.trans hlost)

/-- A link was given back, and there are references left. -/
theorem Held.withLink (hh : p.Held r) (hy : r.graph? h = some y) (hc : c ∈ y.callers)
    (hcut : (c, h) ∉ p.cut) (hlt : (p.lost h y).size + 1 < y.refcount) :
    (p.withLink c h).Held r := by
  intro k z d hk hz hd
  -- the graph that lost a caller has references left, and the others lost none
  by_cases e : k = h
  · subst e
    rw [hy] at hz
    cases hz
    rwa [lost_withLink hc hcut]
  · rw [lost_withLink_of_ne e]
    exact hh k z d hk hz hd

/-- A link was given back, and its graph goes. -/
theorem Held.withLink_withGraph (hh : p.Held r) (c : NodeId) (h : GraphId) :
    ((p.withLink c h).withGraph h).Held r := by
  intro k z d hk hz hd
  have hne : k ≠ h := fun e => hk (Or.inl e)
  have hlost : ((p.withLink c h).withGraph h).lost k z = p.lost k z := lost_withLink_of_ne hne c z
  rw [hlost]
  exact hh k z d (fun ho => hk (Or.inr ho)) hz hd

/-! ## How far a piece of the teardown goes -/

/-- All that there is to do for the graph `k` is done. -/
structure Done (r : Registry) (p : Progress) (k : GraphId) : Prop where
  freed : ∀ n, r.OwnedBy n k → n ∈ p.freed
  links : ∀ c h, r.OwnedBy c k → r.Calls c h → h ∈ p.opened ∨ (c, h) ∈ p.cut
  gone : k ∈ p.gone

/-- From `p` to `q` the teardown did something about the nodes in `X`, and did all that there is to
do for each graph that it opened. -/
structure Advance (r : Registry) (X : Set NodeId) (p q : Progress) : Prop where
  opened : p.opened ⊆ q.opened
  cut : p.cut ⊆ q.cut
  freed : p.freed ⊆ q.freed
  gone : p.gone ⊆ q.gone
  cutter : ∀ c h, (c, h) ∈ q.cut → (c, h) ∈ p.cut ∨ c ∈ X ∨ ∃ k ∉ p.opened, r.OwnedBy c k
  freer : ∀ n ∈ q.freed, n ∈ p.freed ∨ n ∈ X ∨ ∃ k ∉ p.opened, r.OwnedBy n k
  done : ∀ k ∈ q.opened, k ∈ p.opened ∨ q.Done r k

variable {X Y : Set NodeId} {u : Progress}

theorem Done.mono (hd : p.Done r k) (hpq : p.Advance r X q) : q.Done r k where
  freed n ho := hpq.freed (hd.freed n ho)
  links c h ho hc := (hd.links c h ho hc).imp (fun hh => hpq.opened hh) fun hcut => hpq.cut hcut
  gone := hpq.gone hd.gone

theorem Advance.refl (r : Registry) (X : Set NodeId) (p : Progress) : p.Advance r X p :=
  ⟨subset_rfl, subset_rfl, subset_rfl, subset_rfl, fun _ _ h => Or.inl h, fun _ h => Or.inl h,
    fun _ h => Or.inl h⟩

theorem Advance.mono (hpq : p.Advance r X q) (hX : X ⊆ Y) : p.Advance r Y q :=
  { hpq with
    cutter := fun c h hc => (hpq.cutter c h hc).imp_right fun hx => hx.imp_left fun hc => hX hc
    freer := fun n hn => (hpq.freer n hn).imp_right fun hx => hx.imp_left fun hn => hX hn }

theorem Advance.trans (hpq : p.Advance r X q) (hqu : q.Advance r X u) : p.Advance r X u where
  opened := hpq.opened.trans hqu.opened
  cut := hpq.cut.trans hqu.cut
  freed := hpq.freed.trans hqu.freed
  gone := hpq.gone.trans hqu.gone
  cutter c h hc := by
    -- what was cut in the second part was cut by the first, by `X`, or by a graph opened later
    rcases hqu.cutter c h hc with hc | hX | ⟨k, hk, ho⟩
    · exact hpq.cutter c h hc
    · exact Or.inr (Or.inl hX)
    · exact Or.inr (Or.inr ⟨k, fun hkp => hk (hpq.opened hkp), ho⟩)
  freer n hn := by
    rcases hqu.freer n hn with hn | hX | ⟨k, hk, ho⟩
    · exact hpq.freer n hn
    · exact Or.inr (Or.inl hX)
    · exact Or.inr (Or.inr ⟨k, fun hkp => hk (hpq.opened hkp), ho⟩)
  done k hk := by
    rcases hqu.done k hk with hk | hd
    · -- what the first part did for a graph stays done
      exact (hpq.done k hk).imp_right fun hd => hd.mono hqu
    · exact Or.inr hd

/-- Of the nodes of a graph that was open before only those in `X` are dealt with. -/
theorem Advance.mem_cut_of_opened (hpq : p.Advance r X q) (hk : k ∈ p.opened)
    (ho : r.OwnedBy c k) (hX : c ∉ X) (hc : (c, h) ∈ q.cut) : (c, h) ∈ p.cut := by
  rcases hpq.cutter c h hc with hc | hc | ⟨j, hj, hoj⟩
  · exact hc
  · exact absurd hc hX
  · have hkj : k = j := OwnedBy.inj ho hoj
    exact absurd hk (hkj ▸ hj)

theorem Advance.mem_freed_of_opened (hpq : p.Advance r X q) (hk : k ∈ p.opened)
    (ho : r.OwnedBy n k) (hX : n ∉ X) (hn : n ∈ q.freed) : n ∈ p.freed := by
  rcases hpq.freer n hn with hn | hn | ⟨j, hj, hoj⟩
  · exact hn
  · exact absurd hn hX
  · have hkj : k = j := OwnedBy.inj ho hoj
    exact absurd hk (hkj ▸ hj)

theorem Advance.withLink (hc : c ∈ X) (h : GraphId) : p.Advance r X (p.withLink c h) where
  opened := subset_rfl
  cut := Set.subset_insert _ _
  freed := subset_rfl
  gone := subset_rfl
  cutter c' h' hcut := by
    rcases hcut with hcut | hcut
    · obtain ⟨rfl, rfl⟩ := Prod.mk.injEq _ _ _ _ ▸ hcut
      exact Or.inr (Or.inl hc)
    · exact Or.inl hcut
  freer _ hn := Or.inl hn
  done _ hk := Or.inl hk

theorem Advance.withNode (hn : n ∈ X) : p.Advance r X (p.withNode n) where
  opened := subset_rfl
  cut := subset_rfl
  freed := Set.subset_insert _ _
  gone := subset_rfl
  cutter _ _ hcut := Or.inl hcut
  freer n' hn' := by
    rcases hn' with rfl | hn'
    · exact Or.inr (Or.inl hn)
    · exact Or.inl hn'
  done _ hk := Or.inl hk

/-- The work on a graph is done when its nodes are freed, its links are given back or forgotten,
and it is gone. -/
theorem Advance.close (hk : k ∉ p.opened)
    (hpq : (p.withGraph k).Advance r {n | r.OwnedBy n k} q)
    (hd : (q.withoutGraph k).Done r k) : p.Advance r ∅ (q.withoutGraph k) where
  opened := fun j hj => hpq.opened (Or.inr hj)
  cut := hpq.cut
  freed := hpq.freed
  gone := fun j hj => Or.inr (hpq.gone hj)
  cutter c h hc := by
    -- the nodes of the graph itself are those of a graph that was opened
    rcases hpq.cutter c h hc with hc | ho | ⟨j, hj, ho⟩
    · exact Or.inl hc
    · exact Or.inr (Or.inr ⟨k, hk, ho⟩)
    · exact Or.inr (Or.inr ⟨j, fun hjp => hj (Or.inr hjp), ho⟩)
  freer n hn := by
    rcases hpq.freer n hn with hn | ho | ⟨j, hj, ho⟩
    · exact Or.inl hn
    · exact Or.inr (Or.inr ⟨k, hk, ho⟩)
    · exact Or.inr (Or.inr ⟨j, fun hjp => hj (Or.inr hjp), ho⟩)
  done j hj := by
    rcases hpq.done j hj with hjp | hjd
    · rcases hjp with rfl | hjp
      · exact Or.inr hd
      · exact Or.inl hjp
    · exact Or.inr ⟨hjd.freed, hjd.links, Or.inr hjd.gone⟩

/-! ## When all is done -/

/-- Of the links to a standing graph those of the graphs that go were given back. -/
theorem mem_cut_iff (hs : p.Sound r g) (hd : ∀ k ∈ p.opened, p.Done r k) (hh : h ∉ p.opened)
    (hc : r.Calls c h) : (c, h) ∈ p.cut ↔ ∃ k ∈ p.opened, r.OwnedBy c k := by
  constructor
  · intro hcut
    exact (hs.links c h hcut).2
  · rintro ⟨k, hk, ho⟩
    exact ((hd k hk).links c h ho hc).resolve_left hh

/-- The callers of a standing graph that have given back their links are those that go. -/
theorem lost_eq (hm : r.Mirrored) (hs : p.Sound r g) (hd : ∀ k ∈ p.opened, p.Done r k)
    (hh : h ∉ p.opened) (hy : r.graph? h = some y) :
    p.lost h y = y.callers.filter fun c => ∃ k ∈ p.opened, r.OwnedBy c k := by
  refine OrderedSet.filter_congr fun c hc => ?_
  have hcalls : r.Calls c h := (hm.calls c h).2 ⟨y, hy, hc⟩
  simp only [mem_cut_iff hs hd hh hcalls]

/-- What a completed teardown opened is the least set that falls. -/
theorem isLeast (hm : r.Mirrored) (hs : p.Sound r g) (hh : p.Held r) (hg : g ∈ p.opened)
    (hd : ∀ k ∈ p.opened, p.Done r k) : IsLeast {S | r.Falls g S} p.opened := by
  refine ⟨⟨hg, fun h y hy hpos hle => ?_⟩, fun S hS => hs.least S hS⟩
  -- a standing graph has references left, more than those that go hold
  by_contra hopen
  rw [ncard_callsFrom hm hy, ← lost_eq hm hs hd hopen hy] at hle
  -- at least one caller has given back its link, so the graph has callers
  have hne : (p.lost h y).size ≠ 0 := by omega
  rw [Ne, OrderedSet.size_eq_zero, not_forall] at hne
  obtain ⟨c, hc⟩ := hne
  have hcy : c ∈ y.callers := (OrderedSet.mem_filter.1 (not_not.1 hc)).1
  have hlt := hh h y c hopen hy hcy
  omega

end Progress

end Sdg
