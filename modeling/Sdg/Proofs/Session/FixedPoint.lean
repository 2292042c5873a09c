import Sdg.Proofs.Session.Steady

/-!
# Formal parameters as a fixed point

How the formal parameters of a graph come about depends on the order in which graphs are asked for,
on what is under way meanwhile and on what calls back. What they are in the end does not: they are
what the bodies ask for that can be reached along links, and nothing else. That nothing is added is
kept by every change, because a change adds a parameter for a reason. That nothing is missing holds
between steps, where each graph covers its own body and has what the graphs have that it calls.
Links are no different: a change adds one for a reason, and between steps none is missing. So what
can be reached is settled by what is given, and the formal parameters are the same after every run.

Main results:

* `Registry.Founded.change` — a change adds no formal parameter that no body in reach asks for, and
  no link that no call asks for;
* `Registry.Founded.mem_reach_iff` — what can be reached along links is what calls may run;
* `Session.Builds.formals_iff_reach` — after any run of building steps the formal parameters of a
  graph are what the bodies in reach ask for, and the same for every run.
-/

namespace Sdg

open Registry Relation

namespace Registry

/-- The functions of the graphs that can be reached from the graph `g` along links. -/
def reach (r : Registry) (g : GraphId) : Set FunctionId :=
  {f | ∃ h, ReflTransGen r.Links g h ∧ r.Hosts h f}

/-- Each global and each own parameter is there because of a body in reach, or is declared, and each
link because of a call. -/
structure Founded (e : Setup) (r : Registry) : Prop where
  global : ∀ g y v q, r.graph? g = some y → y.formals.at? (.global v) = some q →
    ∃ f ∈ r.reach g, e.program.Touches f v
  own : ∀ g y v q, r.graph? g = some y → y.formals.at? (.own v) = some q →
    (∃ x, e.program.function y.function = .ok x ∧ v ∈ x.params) ∨
      ∃ f ∈ r.reach g, e.Allocates f v
  linked : ∀ g h, r.Links g h → r.MayLink e g h

variable {e : Setup} {r s : Registry} {g h : GraphId} {f : FunctionId} {y z : Graph} {v : ValueId}
  {q : ParameterPair}

theorem mem_reach_self (hy : r.graph? g = some y) : y.function ∈ r.reach g :=
  ⟨g, .refl, y, hy, rfl⟩

theorem reach_of_links (hl : r.Links g h) (hf : f ∈ r.reach h) : f ∈ r.reach g := by
  obtain ⟨k, hk, hosts⟩ := hf
  exact ⟨k, .head hl hk, hosts⟩

theorem reach_grows (hg : r.Grows s) (hf : f ∈ r.reach g) : f ∈ s.reach g := by
  obtain ⟨k, hk, hosts⟩ := hf
  have hk' : ReflTransGen s.Links g k := hk.lift id fun _ _ hl => hl.grows hg
  exact ⟨k, hk', hosts.grows hg⟩

theorem Founded.empty (e : Setup) : Registry.empty.Founded e where
  global _ _ _ _ hy := by cases hy
  own _ _ _ _ hy := by cases hy
  linked _ _ hl := by
    obtain ⟨_, ⟨_, hx, _⟩, _⟩ := hl
    cases hx

/-! ## Nothing is added without a reason -/

/-- A new global is touched by a body in reach. -/
theorem Founded.global_of_reason (hr : r.Founded e) (hy : r.graph? g = some y)
    (h : Reason e r g y (.global v)) : ∃ f ∈ r.reach g, e.program.Touches f v := by
  cases h with
  | touched ht => exact ⟨y.function, mem_reach_self hy, ht⟩
  | handedGlobal hl hz hm =>
    obtain ⟨q, hq⟩ := OrderedMap.mem_keys.1 hm
    obtain ⟨f, hf, ht⟩ := hr.global _ _ v q hz hq
    exact ⟨f, reach_of_links hl hf, ht⟩

/-- A new own parameter is declared or is allocated by a body in reach. -/
theorem Founded.own_of_reason (hd : e.program.DeclaresArguments) (hr : r.Founded e)
    (hy : r.graph? g = some y) (h : Reason e r g y (.own v)) :
    (∃ x, e.program.function y.function = .ok x ∧ v ∈ x.params) ∨
      ∃ f ∈ r.reach g, e.Allocates f v := by
  cases h with
  | declared hx hv => exact Or.inl ⟨_, hx, hv⟩
  | allocated ha => exact Or.inr ⟨y.function, mem_reach_self hy, ha⟩
  | handedHeap hl hz hm hn =>
    obtain ⟨q, hq⟩ := OrderedMap.mem_keys.1 hm
    rcases hr.own _ _ v q hz hq with ⟨x, hx, hv⟩ | ⟨f, hf, ha⟩
    · -- an argument stays with its function
      exact absurd (hd _ x hx v hv) hn
    · exact Or.inr ⟨f, reach_of_links hl hf, ha⟩

/-- **Foundation.** A change adds no formal parameter that no body in reach asks for, and no link
that no call asks for. -/
theorem Founded.change (hd : e.program.DeclaresArguments) (hr : r.Founded e)
    (h : Change e r s) : s.Founded e where
  global g y' v q hy' hq := by
    rcases h.graph hy' with ⟨f, _, rfl, _⟩ | ⟨y, hy, hturn⟩
    · cases hq
    · -- the parameter was there before, or the change had a reason to add it
      have hold : ∃ f ∈ r.reach g, e.program.Touches f v := by
        rcases hturn.at? hq with hq | hreason
        · exact hr.global g y v q hy hq
        · exact hr.global_of_reason hy hreason
      obtain ⟨f, hf, ht⟩ := hold
      exact ⟨f, reach_grows h.grows hf, ht⟩
  own g y' v q hy' hq := by
    rcases h.graph hy' with ⟨f, _, rfl, _⟩ | ⟨y, hy, hturn⟩
    · cases hq
    · have hold : (∃ x, e.program.function y.function = .ok x ∧ v ∈ x.params) ∨
          ∃ f ∈ r.reach g, e.Allocates f v := by
        rcases hturn.at? hq with hq | hreason
        · exact hr.own g y v q hy hq
        · exact hr.own_of_reason hd hy hreason
      -- the graph stands for the same function as before the change
      obtain ⟨y'', hy'', hgrows⟩ := h.grows.graph g y hy
      rw [hy'] at hy''
      cases hy''
      rcases hold with ⟨x, hx, hv⟩ | ⟨f, hf, ha⟩
      · exact Or.inl ⟨x, by rw [hgrows.function, hx], hv⟩
      · exact Or.inr ⟨f, reach_grows h.grows hf, ha⟩
  linked g k hl := by
    rcases h.links hl with hl | hmay
    · exact (hr.linked g k hl).grows h.grows
    · exact hmay.grows h.grows

theorem Founded.changes (hd : e.program.DeclaresArguments) (hr : r.Founded e)
    (h : Changes e r s) : s.Founded e := by
  induction h with
  | refl => exact hr
  | tail _ hc ih => exact ih.change hd hc

/-! ## Nothing is missing -/

/-- A graph has what a body in reach asks for, if it is no argument. -/
theorem Steady.contains_of_reach (hr : r.Steady e.program)
    (hcov : ∀ g y, r.graph? g = some y → Covered e r g y) (hy : r.graph? g = some y)
    (hf : f ∈ r.reach g) (hv : e.program.Touches f v ∨ e.Allocates f v) :
    y.formals.contains v = true := by
  obtain ⟨h, hl, z, hz, rfl⟩ := hf
  have hzv : z.formals.contains v = true := by
    rcases hv with hv | hv
    · exact (hcov h z hz).touched v hv
    · exact (hcov h z hz).allocated v hv
  -- only arguments are not handed on
  have hn : ¬ e.program.IsArgument v := by
    rcases hv with hv | hv
    · exact Module.not_isArgument_of_isGlobal hv.isGlobal
    · exact hv.not_isArgument
  exact hr.absorbed_chain hl y z v hy hz (handed_of_contains hn hzv)

/-- The globals of a graph are those that a body in reach touches. -/
theorem Steady.globals_iff (hd : e.program.DeclaresArguments) (hr : r.Steady e.program)
    (hcov : ∀ g y, r.graph? g = some y → Covered e r g y) (hfound : r.Founded e)
    (hy : r.graph? g = some y) :
    v ∈ y.formals.globals.keys ↔ ∃ f ∈ r.reach g, e.program.Touches f v := by
  constructor
  · intro hv
    obtain ⟨q, hq⟩ := OrderedMap.mem_keys.1 hv
    exact hfound.global g y v q hy hq
  · intro h
    obtain ⟨f, hf, ht⟩ := h
    have hc := hr.contains_of_reach hcov hy hf (Or.inl ht)
    obtain ⟨q, hq | hq⟩ := Parameters.contains_eq_true_iff_at?.1 hc
    · -- an own parameter is no global
      rcases hfound.own g y v q hy hq with ⟨x, hx, hv⟩ | ⟨k, _, ha⟩
      · exact absurd (hd _ x hx v hv) (Module.not_isArgument_of_isGlobal ht.isGlobal)
      · exact absurd ht.isGlobal ha.not_isGlobal
    · exact OrderedMap.mem_keys.2 ⟨q, hq⟩

/-- The own parameters of a graph are those that its function declares and those that a body in
reach allocates. -/
theorem Steady.own_iff (hd : e.program.DeclaresArguments) (hr : r.Steady e.program)
    (hcov : ∀ g y, r.graph? g = some y → Covered e r g y) (hfound : r.Founded e)
    (hy : r.graph? g = some y) :
    v ∈ y.formals.own.keys ↔ (∃ x, e.program.function y.function = .ok x ∧ v ∈ x.params) ∨
      ∃ f ∈ r.reach g, e.Allocates f v := by
  constructor
  · intro hv
    obtain ⟨q, hq⟩ := OrderedMap.mem_keys.1 hv
    exact hfound.own g y v q hy hq
  · intro hv
    have hc : y.formals.contains v = true := by
      rcases hv with ⟨x, hx, hv⟩ | ⟨f, hf, ha⟩
      · exact (hcov g y hy).declared x v hx hv
      · exact hr.contains_of_reach hcov hy hf (Or.inr ha)
    -- neither an argument nor a heap object is a global
    have hn : e.program.isGlobal v ≠ .ok true := by
      intro hglobal
      rcases hv with ⟨x, hx, hv⟩ | ⟨f, _, ha⟩
      · exact Module.not_isArgument_of_isGlobal hglobal (hd _ x hx v hv)
      · exact ha.not_isGlobal hglobal
    obtain ⟨q, hq | hq⟩ := Parameters.contains_eq_true_iff_at?.1 hc
    · exact OrderedMap.mem_keys.2 ⟨q, hq⟩
    · exact absurd (hr.orderly.sorted g y v q hy hq) hn

/-! ## What can be reached -/

/-- What can be reached from a graph along links is what the calls may run that can be reached from
its function. Nothing in this depends on how the links came about. -/
theorem Founded.mem_reach_iff (hfound : r.Founded e)
    (hcov : ∀ g y, r.graph? g = some y → Covered e r g y) (hy : r.graph? g = some y) :
    f ∈ r.reach g ↔ ReflTransGen e.Runs y.function f := by
  constructor
  · intro hp
    obtain ⟨h, hl, hosts⟩ := hp
    -- each link goes from a function to one that a call in it may run
    have hruns : ∀ z, r.graph? h = some z → ReflTransGen e.Runs y.function z.function := by
      clear hosts
      induction hl with
      | refl =>
        intro z hz
        rw [hy] at hz
        cases hz
        exact .refl
      | @tail k h _ hkh ih =>
        intro z hz
        obtain ⟨x, z', hx, hz', hr⟩ := hfound.linked k h hkh
        rw [hz] at hz'
        cases hz'
        exact (ih x hx).tail hr
    obtain ⟨z, hz, rfl⟩ := hosts
    exact hruns z hz
  · intro hruns
    induction hruns with
    | refl => exact mem_reach_self hy
    | tail _ hr ih =>
      -- a covered graph is linked to the graph of all that its calls may run
      obtain ⟨h, hl, z, hz, rfl⟩ := ih
      obtain ⟨k, hlk, hosts⟩ := (hcov h z hz).served _ hr
      exact ⟨k, hl.tail hlk, hosts⟩

end Registry

/-! ## Runs of building steps -/

/-- The sessions that follow from a setup by steps that build and did not fail. -/
inductive Session.Builds (e : Setup) : Session → Prop where
  | start : Session.Builds e ⟨e, .empty⟩
  | root {s t : Session} {name? : Option String} {o : Outcome} : Session.Builds e s →
      (s.step (.root name?)).2 = .ok (o, t) → Session.Builds e t
  | getOrBuild {s t : Session} {f : FunctionId} {o : Outcome} : Session.Builds e s →
      (s.step (.getOrBuild f)).2 = .ok (o, t) → Session.Builds e t

namespace Session.Builds

variable {e : Setup} {s t : Session}

/-- What building steps keep. -/
structure Invariant (e : Setup) (s : Session) : Prop where
  setup : s.setup = e
  steady : s.registry.Steady e.program
  covered : ∀ g y, s.registry.graph? g = some y → Covered e s.registry g y
  founded : s.registry.Founded e

theorem Invariant.ripens (hd : e.program.DeclaresArguments) (hs : Invariant e s)
    (ht : t.setup = e) (h : Ripens e s.registry t.registry) : Invariant e t where
  setup := ht
  steady := hs.steady.ripens h
  covered := h.covered hs.covered
  founded := hs.founded.changes hd h.changes

theorem invariant (hd : e.program.DeclaresArguments) (hs : Session.Builds e s) :
    Invariant e s := by
  induction hs with
  | start => exact ⟨rfl, .empty _, fun _ _ hy => (by cases hy), .empty e⟩
  | @root s t name? o _ hstep ih =>
    have hsetup := ih.setup
    have hr : s.registry.Orderly s.setup.program := hsetup ▸ ih.steady.orderly
    have hripens := (Session.effect hr hstep).ripens hr (.root name?)
    rw [hsetup] at hripens
    exact ih.ripens hd ((Session.setup_of_step hstep).trans hsetup) hripens
  | @getOrBuild s t f o _ hstep ih =>
    have hsetup := ih.setup
    have hr : s.registry.Orderly s.setup.program := hsetup ▸ ih.steady.orderly
    have hripens := (Session.effect hr hstep).ripens hr (.getOrBuild f)
    rw [hsetup] at hripens
    exact ih.ripens hd ((Session.setup_of_step hstep).trans hsetup) hripens

/-- **Fixed point.** After any run of building steps on a module that declares arguments, the global
parameters of a graph are the globals that bodies in reach touch, and its own parameters are those
that its function declares and the heap objects that bodies in reach allocate. After any other run a
graph of the same function has the same. -/
theorem formals_iff_reach (hd : e.program.DeclaresArguments) (hs : Session.Builds e s) {g : GraphId}
    {y : Graph} (hy : s.registry.graph? g = some y) :
    (∀ v, v ∈ y.formals.globals.keys ↔
        ∃ f ∈ s.registry.reach g, e.program.Touches f v) ∧
      (∀ v, v ∈ y.formals.own.keys ↔
        (∃ x, e.program.function y.function = .ok x ∧ v ∈ x.params) ∨
          ∃ f ∈ s.registry.reach g, e.Allocates f v) ∧
      ∀ t h z, Session.Builds e t → t.registry.graph? h = some z → z.function = y.function →
        t.registry.reach h = s.registry.reach g ∧
          (∀ v, v ∈ z.formals.globals.keys ↔ v ∈ y.formals.globals.keys) ∧
            ∀ v, v ∈ z.formals.own.keys ↔ v ∈ y.formals.own.keys := by
  -- everything a graph has is told by what can be reached from its function
  have hi := hs.invariant hd
  have hglobals := fun v => hi.steady.globals_iff (v := v) hd hi.covered hi.founded hy
  have hown := fun v => hi.steady.own_iff (v := v) hd hi.covered hi.founded hy
  refine ⟨hglobals, hown, fun t h z ht hz hfun => ?_⟩
  have hj := ht.invariant hd
  have hreach : t.registry.reach h = s.registry.reach g := by
    ext f
    rw [hj.founded.mem_reach_iff hj.covered hz, hi.founded.mem_reach_iff hi.covered hy, hfun]
  refine ⟨hreach, fun v => ?_, fun v => ?_⟩
  · rw [hj.steady.globals_iff hd hj.covered hj.founded hz, hreach, hglobals v]
  · rw [hj.steady.own_iff hd hj.covered hj.founded hz, hreach, hfun, hown v]

/-- Only `tick` declares a parameter, and that is an argument. -/
theorem ticks_declaresArguments : Module.ticks.DeclaresArguments := by
  intro f x hx v hv
  -- the module has three functions
  have hmem : x ∈ Module.ticks.functions := by
    unfold Module.function at hx
    split at hx
    · cases hx
      exact Array.mem_of_getElem? ‹_›
    · cases hx
  simp only [Module.ticks, Array.mem_def, List.mem_cons, List.not_mem_nil, or_false] at hmem
  rcases hmem with rfl | rfl | rfl
  · cases hv
  · rw [List.mem_singleton.1 hv]
    exact ⟨_, ⟨1⟩, 0, rfl, rfl⟩
  · cases hv

/-- The global that `main` has is touched by a body in reach, which is that of `tick`. -/
theorem main_reaches_ticks : ∃ o s, ((Session.start .ticks).step (.root none)).2 = .ok (o, s) ∧
    ∃ f ∈ s.registry.reach ⟨0⟩, Module.ticks.Touches f ⟨0⟩ := by
  have hglobal : ((Session.start .ticks).step (.root none)).2.toOption.any (fun p =>
      (p.2.registry.graph? ⟨0⟩).any fun y => decide (⟨0⟩ ∈ y.formals.globals.keys)) = true := by
    decide +kernel
  obtain ⟨⟨o, s⟩, hstep, htest⟩ := exists_ok_of_any hglobal
  obtain ⟨y, hy, hv⟩ := (Option.any_eq_true _ _).1 htest
  have hs : Session.Builds (.standard .ticks) s := .root .start hstep
  have hiff := (hs.formals_iff_reach ticks_declaresArguments hy).1 ⟨0⟩
  exact ⟨o, s, hstep, hiff.1 (of_decide_eq_true hv)⟩

end Session.Builds

end Sdg
