import Sdg.Proofs.Registry.Order

/-!
# Closure

A link is settled when the call has bound every formal parameter of the graph that it is linked to,
and when its own graph has the globals and heap objects of that graph. New formal parameters
unsettle the links to their graph, and propagation settles them again. It works on the callers as
they were when it began, and what it does for one of them may give the graph further parameters.
That is why a run of it is described by `Settles`: it may leave the links to a graph unsettled only
if that graph has got no new parameter.

Main results:

* `Settled.grows` — a settled link stays settled while its graph gets no new parameter;
* `Settles.trans` — what one run has settled, the next does not unsettle.
-/

namespace Sdg

theorem Graph.Grows.contains {y y' : Graph} (h : y.Grows y') {v : ValueId}
    (hv : y.formals.contains v = true) : y'.formals.contains v = true := by
  obtain ⟨q, hq⟩ := Parameters.contains_eq_true_iff.1 hv
  exact Parameters.contains_eq_true_iff.2 ⟨q, h.find? v q hq⟩

namespace Registry

/-- The formal parameters of a graph, if it is live. -/
def formals? (r : Registry) (g : GraphId) : Option Parameters := (r.graph? g).map (·.formals)

/-- The variadic parameter of a graph, if the graph is live and has one. -/
def variadic? (r : Registry) (g : GraphId) : Option ParameterPair :=
  (r.formals? g).bind (·.variadic?)

/-- What comes in variadically at the graph `g` also goes out. -/
def Loops (r : Registry) (g : GraphId) : Prop :=
  ∀ q, r.variadic? g = some q → r.Feeds q.input q.output

/-- The value `v` is a parameter of the graph `g`. -/
def HasFormal (r : Registry) (g : GraphId) (v : ValueId) : Prop :=
  ∃ y, r.graph? g = some y ∧ y.formals.contains v = true

/-- The live graph `g` is that of the function `f`. -/
def Hosts (r : Registry) (g : GraphId) (f : FunctionId) : Prop :=
  ∃ y, r.graph? g = some y ∧ y.function = f

/-- The call `c` passes to the graph `g` all that it takes, and takes all that it gives back. -/
def Bound (m : Module) (r : Registry) (c : NodeId) (g : GraphId) : Prop :=
  ∀ v formal, r.Binds m c g v formal → ∃ actual, r.actual? c v = some actual ∧
    r.Feeds actual.input formal.input ∧ r.Feeds formal.output actual.output

/-- Every global and every heap object of the graph `h` is a parameter of the graph `g`. -/
def Absorbed (m : Module) (r : Registry) (g h : GraphId) : Prop :=
  ∀ y z v, r.graph? g = some y → r.graph? h = some z →
    v ∈ z.formals.globals.keys ∨ v ∈ z.formals.own.keys ∧ ¬ m.IsArgument v →
    y.formals.contains v = true

/-- The link of `c` to `g` is up to date with the formal parameters of `g`. -/
structure Settled (m : Module) (r : Registry) (c : NodeId) (g : GraphId) : Prop where
  bound : r.Bound m c g
  absorbed : ∀ h, r.OwnedBy c h → r.Absorbed m h g

/-- All links to the graph `g` are up to date. -/
def Clean (m : Module) (r : Registry) (g : GraphId) : Prop := ∀ c, r.Calls c g → r.Settled m c g

/-- All links are up to date. -/
def Closed (m : Module) (r : Registry) : Prop := ∀ g, r.Clean m g

variable {m : Module} {r s t : Registry} {c : NodeId} {g h : GraphId}

/-! ## What stays settled -/

theorem graph?_of_formals?_eq (hf : s.formals? g = r.formals? g) {z' : Graph}
    (hz' : s.graph? g = some z') : ∃ z, r.graph? g = some z ∧ z'.formals = z.formals := by
  unfold formals? at hf
  rw [hz', Option.map_some] at hf
  obtain ⟨z, hz, he⟩ := Option.map_eq_some_iff.1 hf.symm
  exact ⟨z, hz, he.symm⟩

/-- A binding at an old link to a graph with the same formal parameters is an old one. -/
theorem Binds.of_grows (hg : r.Grows s) (hc : r.Calls c g) (hf : s.formals? g = r.formals? g)
    {v : ValueId} {q : ParameterPair} (hb : s.Binds m c g v q) : r.Binds m c g v q := by
  obtain ⟨x', callee, args, z', f, hx', _, hop, hz', hfun, hb⟩ := hb
  obtain ⟨x, hx, hcx⟩ := hc
  obtain ⟨x'', hx'', hxx⟩ := hg.node c x hx
  rw [hx'] at hx''
  cases hx''
  obtain ⟨z, hz, hformals⟩ := graph?_of_formals?_eq hf hz'
  obtain ⟨z'', hz'', hzz⟩ := hg.graph g z hz
  rw [hz'] at hz''
  cases hz''
  refine ⟨x, callee, args, z, f, hx, hcx, ?_, hz, ?_, ?_⟩
  · rw [← hxx.key]
    exact hop
  · rw [← hzz.function]
    exact hfun
  · rw [← hformals]
    exact hb

theorem Bound.grows (hg : r.Grows s) (hc : r.Calls c g) (hf : s.formals? g = r.formals? g)
    (hb : r.Bound m c g) : s.Bound m c g := by
  intro v formal hbind
  obtain ⟨actual, ha, h1, h2⟩ := hb v formal (hbind.of_grows hg hc hf)
  exact ⟨actual, actual?_grows hg ha, h1.grows hg, h2.grows hg⟩

theorem contains_grows (hg : r.Grows s) {y y' : Graph} (hy : r.graph? g = some y)
    (hy' : s.graph? g = some y') {v : ValueId} (hv : y.formals.contains v = true) :
    y'.formals.contains v = true := by
  obtain ⟨y'', hy'', hyy⟩ := hg.graph g y hy
  rw [hy'] at hy''
  cases hy''
  exact hyy.contains hv

theorem HasFormal.grows (hg : r.Grows s) {v : ValueId} (h : r.HasFormal g v) :
    s.HasFormal g v := by
  obtain ⟨y, hy, hv⟩ := h
  obtain ⟨y', hy', hyy⟩ := hg.graph g y hy
  exact ⟨y', hy', hyy.contains hv⟩

theorem Hosts.function_eq {f : FunctionId} {y : Graph} (h : r.Hosts g f)
    (hy : r.graph? g = some y) : y.function = f := by
  obtain ⟨y', hy', hf⟩ := h
  rw [hy] at hy'
  cases hy'
  exact hf

theorem Hosts.grows (hg : r.Grows s) {f : FunctionId} (h : r.Hosts g f) : s.Hosts g f := by
  obtain ⟨y, hy, hf⟩ := h
  obtain ⟨y', hy', hyy⟩ := hg.graph g y hy
  exact ⟨y', hy', hyy.function.trans hf⟩

theorem Absorbed.grows (hg : r.Grows s) {y : Graph} (hy : r.graph? h = some y)
    (hf : s.formals? g = r.formals? g) (ha : r.Absorbed m h g) : s.Absorbed m h g := by
  intro y' z' v hy' hz' hv
  obtain ⟨z, hz, hformals⟩ := graph?_of_formals?_eq hf hz'
  rw [hformals] at hv
  exact contains_grows hg hy hy' (ha y z v hy hz hv)

theorem Orderly.owner (hr : r.Orderly m) (hc : r.Calls c g) :
    ∃ h y, r.OwnedBy c h ∧ r.graph? h = some y := by
  obtain ⟨h, args, hcall⟩ := hr.linked c g hc
  have ho := hcall.ownedBy
  obtain ⟨x, y, callee, hx, hxg, hy, _⟩ := hcall
  exact ⟨h, y, ho, hy⟩

/-- A settled link stays settled while its graph gets no new parameter. -/
theorem Settled.grows (hr : r.Orderly m) (hg : r.Grows s) (hc : r.Calls c g)
    (hf : s.formals? g = r.formals? g) (hs : r.Settled m c g) : s.Settled m c g where
  bound := hs.bound.grows hg hc hf
  absorbed h ho := by
    -- the owner of a linked call is live, and a call does not change hands
    obtain ⟨h', y, ho', hy⟩ := hr.owner hc
    have heq : h' = h := (ho'.grows hg).inj ho
    subst heq
    exact (hs.absorbed h' ho').grows hg hy hf

/-- A revision of a graph in other respects leaves its formal parameters alone. -/
theorem formals?_reviseGraph {f : Graph → Graph} (hf : ∀ y, (f y).formals = y.formals)
    (h : GraphId) : (r.reviseGraph g f).formals? h = r.formals? h := by
  rw [formals?, formals?, graph?_reviseGraph]
  split
  · rw [Option.map_map]
    exact congrArg (Option.map · _) (funext hf)
  · rfl

/-- A fresh graph has no variadic parameter. -/
theorem variadic?_pushGraph (r : Registry) (f : FunctionId) (h : GraphId) :
    (r.pushGraph (.fresh f)).variadic? h = r.variadic? h := by
  rw [variadic?, variadic?, formals?, formals?, graph?_pushGraph]
  split
  · rename_i hh
    rw [hh, graph?_nextGraph]
    rfl
  · rfl

theorem variadic?_eq (hf : s.formals? g = r.formals? g) : s.variadic? g = r.variadic? g := by
  rw [variadic?, variadic?, hf]

theorem Loops.grows (hg : r.Grows s) (hv : s.variadic? g = r.variadic? g) (hl : r.Loops g) :
    s.Loops g := by
  intro q hq
  rw [hv] at hq
  exact (hl q hq).grows hg

/-- A variadic parameter that is kept or looped in two steps is so in both together. -/
theorem loops_trans (hg : s.Grows t) (h : s.variadic? g = r.variadic? g ∨ s.Loops g)
    (k : t.variadic? g = s.variadic? g ∨ t.Loops g) :
    t.variadic? g = r.variadic? g ∨ t.Loops g := by
  rcases k with hv | hl
  · rcases h with hv' | hl
    · exact Or.inl (hv.trans hv')
    · exact Or.inr (hl.grows hg hv)
  · exact Or.inr hl

end Registry

open Registry

/-! ## Several spreads -/

variable {e : Setup} {r s t : Registry}

theorem Spreads.grows (h : Spreads e r s) : r.Grows s := by
  induction h with
  | refl => exact .refl r
  | tail _ hs ih => exact ih.trans hs.grows

theorem Spreads.calls_iff (h : Spreads e r s) (c : NodeId) (g : GraphId) :
    s.Calls c g ↔ r.Calls c g := by
  induction h with
  | refl => exact Iff.rfl
  | tail _ hs ih => rw [hs.keepsLinks.calls, ih]

/-- Of a graph nothing changes but the formals. -/
theorem Spreads.graph (h : Spreads e r s) {g : GraphId} {y' : Graph}
    (hy' : s.graph? g = some y') :
    ∃ y, r.graph? g = some y ∧ y' = { y with formals := y'.formals } := by
  induction h generalizing y' with
  | refl => exact ⟨y', hy', rfl⟩
  | tail _ hs ih =>
    obtain ⟨z, hz, he⟩ := hs.graph hy'
    obtain ⟨y, hy, hez⟩ := ih hz
    refine ⟨y, hy, ?_⟩
    rw [he, hez]

theorem Spreads.orderly (h : Spreads e r s) (hr : r.Orderly e.program) : s.Orderly e.program :=
  hr.changes h.changes

/-! ## What propagation does -/

/-- `s` comes from `r` by spreading parameters, and the links to every graph that got a new one are
up to date. If that was the variadic one, what comes in at it also goes out. -/
structure Settles (e : Setup) (r s : Registry) : Prop where
  spreads : Spreads e r s
  keeps : ∀ g, s.formals? g = r.formals? g ∨ s.Clean e.program g
  loops : ∀ g, s.variadic? g = r.variadic? g ∨ s.Loops g

theorem Settles.refl (e : Setup) (r : Registry) : Settles e r r :=
  ⟨.refl, fun _ => Or.inl rfl, fun _ => Or.inl rfl⟩

/-- Spreads that leave all graphs as they are unsettle nothing. -/
theorem Settles.of_graphs (h : Spreads e r s) (hg : ∀ g, s.graph? g = r.graph? g) :
    Settles e r s := by
  have hf : ∀ g, s.formals? g = r.formals? g := fun g => by rw [formals?, formals?, hg]
  exact ⟨h, fun g => Or.inl (hf g), fun g => Or.inl (variadic?_eq (hf g))⟩

/-- What `r` has settled about a graph, and about which it was not asked again, stays settled. -/
theorem Settles.settled (h : Settles e r s) (hr : r.Orderly e.program) {c : NodeId} {g : GraphId}
    (hc : r.Calls c g) (hs : r.Settled e.program c g) : s.Settled e.program c g := by
  -- a graph that got nothing keeps its settled links, and one that got something
  -- has settled all of them
  rcases h.keeps g with hf | hclean
  · exact hs.grows hr h.spreads.grows hc hf
  · exact hclean c ((h.spreads.calls_iff c g).2 hc)

theorem Settles.clean (h : Settles e r s) (hr : r.Orderly e.program) {g : GraphId}
    (hc : r.Clean e.program g) : s.Clean e.program g := by
  intro c hcg
  have hcg' := (h.spreads.calls_iff c g).1 hcg
  exact h.settled hr hcg' (hc c hcg')

/-- What one run has settled, the next does not unsettle. -/
theorem Settles.trans (h : Settles e r s) (hr : r.Orderly e.program) (k : Settles e s t) :
    Settles e r t where
  spreads := h.spreads.trans k.spreads
  keeps g := by
    -- the graph got something in the first run, in the second one, or in neither
    rcases h.keeps g with hf | hclean
    · rcases k.keeps g with hf' | hclean
      · exact Or.inl (hf'.trans hf)
      · exact Or.inr hclean
    · exact Or.inr (k.clean (h.spreads.orderly hr) hclean)
  loops g := loops_trans k.spreads.grows (h.loops g) (k.loops g)

/-- A run that begins with a new parameter of `g` and ends with all links to `g` up to date. -/
theorem Settles.of_new {g : GraphId} (h : Spreads e r s)
    (hsame : ∀ h, h ≠ g → s.graph? h = r.graph? h) (hv : s.variadic? g = r.variadic? g)
    (k : Settles e s t) (hclean : t.Clean e.program g) : Settles e r t where
  spreads := h.trans k.spreads
  keeps h' := by
    by_cases hh : h' = g
    · -- the new parameter itself
      subst hh
      exact Or.inr hclean
    · rcases k.keeps h' with hf | hc
      · refine Or.inl (hf.trans ?_)
        rw [formals?, formals?, hsame h' hh]
      · exact Or.inr hc
  loops h' := by
    have hsv : s.variadic? h' = r.variadic? h' := by
      by_cases hh : h' = g
      · rw [hh, hv]
      · rw [variadic?, variadic?, formals?, formals?, hsame h' hh]
    rw [← hsv]
    exact k.loops h'

end Sdg
