import Sdg.Proofs.Building.Evolution
import Sdg.Proofs.Safety.Drafts
import Sdg.Proofs.Safety.Sane

/-!
# Advances

What a part of a build leaves as it is, as far as the bodies of graphs go. `Registry.Fit` gathers
what a part of a build may rely on beyond order: all graphs that are there can be called, and the
own parameters of a graph stand for values that there are. `Advances` says that the bodies of the
old graphs were spared, but for those that the work is about, and that new graphs are whole.

Main results:

* `Advances.trans` — advances follow one another;
* `Registry.Fit.advance` — a registry stays fit.
-/

namespace Sdg

open Registry

namespace Registry

/-- The own parameters of graphs stand for values that there are. -/
def Known (m : Module) (r : Registry) : Prop :=
  ∀ g y v q, r.graph? g = some y → y.formals.at? (.own v) = some q → ∃ x, m.value v = .ok x

/-- What a part of a build may rely on. -/
structure Fit (m : Module) (r : Registry) : Prop where
  orderly : r.Orderly m
  ready : ∀ g y, r.graph? g = some y → y.Ready m
  known : m.IsClosed → r.Known m

variable {e : Setup} {r s : Registry} {g : GraphId} {y : Graph}

/-- A new own parameter stands for a value of the module if the module is closed. -/
theorem Known.change (hm : e.program.IsClosed) (hr : r.Known e.program) (h : Change e r s) :
    s.Known e.program := by
  intro g y' v q hy' hq
  rcases h.graph hy' with ⟨f, _, rfl, _⟩ | ⟨y, hy, hturn⟩
  · simp [Graph.fresh] at hq
  rcases hturn.at? hq with hq | hreason
  · exact hr g y v q hy hq
  cases hreason with
  | declared hf hv => exact hm.param_of_mem hf hv
  | allocated ha => exact hm.value_of_inBody ha.1
  | handedHeap _ hz hv _ =>
    obtain ⟨q', hq'⟩ := OrderedMap.mem_keys.1 hv
    exact hr _ _ v q' hz hq'

theorem Known.changes (hm : e.program.IsClosed) (hr : r.Known e.program) (h : Changes e r s) :
    s.Known e.program := by
  induction h with
  | refl => exact hr
  | tail _ hc ih => exact ih.change hm hc

/-! ## What is live -/

theorem Fit.exists_entry (hr : r.Fit e.program) (hy : r.graph? g = some y) :
    ∃ n x, y.entryNode? = some n ∧ r.node? n = some x := by
  obtain ⟨n, hn⟩ := (hr.ready g y hy).entry
  obtain ⟨key, hi⟩ := (hr.orderly.shaped g y hy).entry n hn
  obtain ⟨x, hx, _⟩ := hr.orderly.housed.live (.index g key) n (by simp [occupant, hy, hi])
  exact ⟨n, x, hn, hx⟩

/-- The two nodes of a formal parameter are live. -/
theorem Housed.exists_formal (hr : r.Housed) (hy : r.graph? g = some y) {s : Slot}
    {q : ParameterPair} (hq : y.formals.at? s = some q) (b : Bool) :
    ∃ x, r.node? (q.side b) = some x := by
  obtain ⟨x, hx, _⟩ := hr.live (.formal g s b) (q.side b) (by simp [occupant, hy, hq])
  exact ⟨x, hx⟩

/-- The two nodes of an actual parameter are live. -/
theorem Housed.exists_actual (hr : r.Housed) {c : NodeId} {v : ValueId} {q : ParameterPair}
    (hq : r.actual? c v = some q) (b : Bool) : ∃ x, r.node? (q.side b) = some x := by
  obtain ⟨z, hz, hf⟩ := Option.bind_eq_some_iff.1 hq
  rw [Parameters.find?_eq, Option.or_eq_some_iff] at hf
  have hslot : ∃ s, z.actuals.at? s = some q := by
    rcases hf with hf | ⟨_, hf⟩
    · exact ⟨_, hf⟩
    · exact ⟨_, hf⟩
  obtain ⟨s, hs⟩ := hslot
  obtain ⟨x, hx, _⟩ := hr.live (.actual c s b) (q.side b) (by simp [occupant, hz, hs])
  exact ⟨x, hx⟩

end Registry

/-! ## Advances -/

/-- What a part of a build does to bodies: those of old graphs it leaves as they are, but for the
graphs of `G`, and new ones it completes. -/
structure Advances (m : Module) (r s : Registry) (G : Set GraphId := ∅) : Prop where
  grows : r.Grows s
  spares : ∀ h ∉ G, ∀ y, r.graph? h = some y → ∃ y', s.graph? h = some y' ∧ y.SameBody y'
  whole : ∀ h ∉ G, ∀ y', r.graph? h = none → s.graph? h = some y' → Whole m s h y'

variable {e : Setup} {m : Module} {r s t : Registry} {g : GraphId} {y : Graph} {G : Set GraphId}
  {F : Set FunctionId}

namespace Advances

theorem refl (m : Module) (r : Registry) : Advances m r r G where
  grows := .refl r
  spares _ _ y hy := ⟨y, hy, .refl y⟩
  whole h _ y' hn hy' := by
    rw [hn] at hy'
    cases hy'

theorem mono {G' : Set GraphId} (h : Advances m r s G) (hG : G ⊆ G') : Advances m r s G' where
  grows := h.grows
  spares k hk := h.spares k fun hk' => hk (hG hk')
  whole k hk := h.whole k fun hk' => hk (hG hk')

theorem but (h : Advances m r s) (G : Set GraphId) : Advances m r s G := h.mono (Set.empty_subset G)

/-- Advances follow one another. -/
theorem trans (h : Advances m r s G) (k : Advances m s t G) : Advances m r t G where
  grows := h.grows.trans k.grows
  spares i hi y hy := by
    obtain ⟨y', hy', hb⟩ := h.spares i hi y hy
    obtain ⟨y'', hy'', hb'⟩ := k.spares i hi y' hy'
    exact ⟨y'', hy'', hb.trans hb'⟩
  whole i hi y'' hn hy'' := by
    -- the graph is from the second part, or the second part spares it
    cases hs : s.graph? i with
    | none => exact k.whole i hi y'' hs hy''
    | some y' =>
      obtain ⟨z, hz, hb⟩ := k.spares i hi y' hs
      rw [hy''] at hz
      cases hz
      exact (h.whole i hi y' hn hs).frame k.grows hb

/-- Where nothing changes about graphs. -/
theorem of_graphs (hg : r.Grows s) (h : ∀ k, s.graph? k = r.graph? k) : Advances m r s G where
  grows := hg
  spares k _ y hy := ⟨y, by rw [h, hy], .refl y⟩
  whole k _ y' hn hy' := by
    rw [h, hn] at hy'
    cases hy'

/-- Where one graph is revised, and the work is about it or its body stays as it is. -/
theorem reviseGraph {f : Graph → Graph} (hg : r.Grows (r.reviseGraph g f))
    (h : g ∉ G → ∀ y, r.graph? g = some y → y.SameBody (f y)) :
    Advances m r (r.reviseGraph g f) G where
  grows := hg
  spares k hk y hy := by
    by_cases hkg : k = g
    · subst hkg
      exact ⟨f y, by simp [hy], h hk y hy⟩
    · exact ⟨y, by simpa [hkg] using hy, .refl y⟩
  whole k _ y' hn hy' := by
    rw [graph?_reviseGraph] at hy'
    split at hy' <;> simp [hn] at hy'

/-- Where parameters spread. -/
theorem of_spreads (h : Spreads e r s) : Advances m r s G where
  grows := h.grows
  spares k _ y hy := by
    obtain ⟨y', hy', _⟩ := h.grows.graph k y hy
    obtain ⟨z, hz, he⟩ := h.graph hy'
    rw [hy] at hz
    cases hz
    refine ⟨y', hy', ?_⟩
    rw [he]
    exact .of_units rfl rfl rfl rfl rfl rfl rfl
  whole k _ y' hn hy' := by
    obtain ⟨y, hy, _⟩ := h.graph hy'
    rw [hn] at hy
    cases hy

/-- A graph whose body was spared. -/
theorem exists_graph (h : Advances m r s) (hy : r.graph? g = some y) :
    ∃ y', s.graph? g = some y' ∧ y.SameBody y' :=
  h.spares g (Set.notMem_empty g) y hy

end Advances

/-- **Fitness.** A registry stays fit, if the graphs that the work is about can be called. -/
theorem Registry.Fit.advance (hr : r.Fit e.program) (hc : Changes e r s)
    (h : Advances e.program r s G) (hG : ∀ g ∈ G, ∀ y, s.graph? g = some y → y.Ready e.program) :
    s.Fit e.program where
  orderly := hr.orderly.changes hc
  ready k y' hy' := by
    by_cases hk : k ∈ G
    · exact hG k hk y' hy'
    -- a new graph is whole, and an old one was spared
    cases hy : r.graph? k with
    | none => exact (h.whole k hk y' hy hy').draft.ready
    | some y =>
      obtain ⟨z, hz, hb⟩ := h.spares k hk y hy
      rw [hy'] at hz
      cases hz
      exact (hr.ready k y hy).of_sameBody hb
  known hm := (hr.known hm).changes hm hc

/-- So it does if the work is about no graph. -/
theorem Registry.Fit.spared (hr : r.Fit e.program) (hc : Changes e r s)
    (h : Advances e.program r s) : s.Fit e.program :=
  hr.advance hc h fun _ hg => absurd hg (Set.notMem_empty _)

theorem Registry.Fit.spreads (hr : r.Fit e.program) (h : Spreads e r s) : s.Fit e.program :=
  hr.spared h.changes (.of_spreads h)

/-- What a part of a build does that is about the body of no graph. -/
structure Spares (e : Setup) (r s : Registry) : Prop where
  evolves : Evolves e r s
  advances : Advances e.program r s

namespace Spares

theorem refl (e : Setup) (r : Registry) : Spares e r r := ⟨.refl e r, .refl _ r⟩

theorem trans (h : Spares e r s) (k : Spares e s t) : Spares e r t :=
  ⟨h.evolves.trans k.evolves, h.advances.trans k.advances⟩

theorem fit (h : Spares e r s) (hr : r.Fit e.program) : s.Fit e.program :=
  hr.spared h.evolves.changes h.advances

theorem of_settles (hr : r.Fit e.program) (h : Settles e r s) : Spares e r s :=
  ⟨.of_settles hr.orderly h, .of_spreads h.spreads⟩

/-- A control edge is no part of a body. -/
theorem control {a b : NodeId} {x z : Node} (hr : r.Orderly e.program) (ha : r.node? a = some x)
    (hb : r.node? b = some z) : Spares e r (r.control a b) := by
  have hcontrol : Evolves e r (r.control a b) := .control hr ha hb
  exact ⟨hcontrol, .of_graphs hcontrol.grows fun g => by simp⟩

end Spares

/-- The graph has a unit for the block. -/
def Registry.HasUnit (r : Registry) (g : GraphId) (b : BlockId) : Prop :=
  ∃ y u, r.graph? g = some y ∧ y.unit? (.block b) = some u

theorem Registry.HasUnit.exists_unit {b : BlockId} (hu : r.HasUnit g b) (hy : r.graph? g = some y) :
    ∃ u, y.unit? (.block b) = some u := by
  obtain ⟨y', u, hy', hu⟩ := hu
  rw [hy] at hy'
  cases hy'
  exact ⟨u, hu⟩

theorem Registry.HasUnit.advance {b : BlockId} (hu : r.HasUnit g b) (h : Advances m r s) :
    s.HasUnit g b := by
  obtain ⟨y, u, hy, hu⟩ := hu
  obtain ⟨y', hy', hb⟩ := h.exists_graph hy
  obtain ⟨u', hu', _⟩ := hb.symm.exists_unit hu
  exact ⟨y', u', hy', hu'⟩

end Sdg
