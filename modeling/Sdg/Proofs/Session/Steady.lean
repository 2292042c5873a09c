import Sdg.Proofs.Session.Moves

/-!
# Steady registries

Between two steps no build is under way. The registry is then `Steady`: orderly, with all links up
to date, and with all graphs built. Every move keeps it steady, so it is so after any run of a
session, whatever was built, torn down and set up anew in between.

Main results:

* `Session.Reachable.steady` — the registry is steady after every run;
* `Session.Reachable.feeds_iff_flow` — data flows where a parameter is bound at a link, and nowhere
  else;
* `Session.Reachable.formals_closed_upward` — a graph has the globals and heap objects of the graphs
  that it calls.
-/

namespace Sdg

open Registry Relation

namespace Registry

/-- What holds between the steps of a session. -/
structure Steady (m : Module) (r : Registry) : Prop where
  orderly : r.Orderly m
  closed : r.Closed m
  loops : ∀ g, r.Loops g
  built : ∀ g y, r.graph? g = some y → y.phase = .built

variable {m : Module} {e : Setup} {r s t : Registry} {a b c : NodeId} {g h : GraphId}
  {D : Set GraphId}

theorem Steady.empty (m : Module) : Registry.empty.Steady m where
  orderly := .empty m
  closed _ _ hc := by
    obtain ⟨_, hx, _⟩ := hc
    cases hx
  loops _ _ hq := by cases hq
  built _ _ hy := by cases hy

theorem Steady.ripens (hr : r.Steady e.program) (h : Ripens e r s) : s.Steady e.program where
  orderly := hr.orderly.changes h.changes
  closed := h.closed hr.closed
  loops := h.loops hr.loops
  built g y' hy' := by
    -- a graph is new and was finished, or it was there and keeps its phase
    cases hy : r.graph? g with
    | none => exact (h.fresh g y' hy hy').1
    | some y =>
      obtain ⟨z, hz, hp⟩ := h.old g y hy
      rw [hy'] at hz
      cases hz
      exact hp.trans (hr.built g y hy)

theorem Steady.remains (hr : r.Steady m) (hD : r.Falls g D) (h : r.Remains D t) :
    t.Steady m where
  orderly := h.orderly hr.orderly hD
  closed := h.closed hr.orderly hr.closed
  loops := h.loops hr.orderly hr.loops
  built k y' hy' := by
    obtain ⟨_, y, hy, rfl⟩ := h.graph?_iff.1 hy'
    exact hr.built k y hy

theorem Steady.moves (hr : r.Steady e.program) (h : r.Moves e t) : t.Steady e.program := by
  cases h with
  | ripens h => exact hr.ripens h
  | falls hD h => exact hr.remains hD.1 h

/-! ## Where data flows -/

/-- A bound parameter has both its edges, and an actual parameter for them. -/
theorem Steady.bound (hr : r.Steady m) {v : ValueId} {formal : ParameterPair}
    (hb : r.Binds m c g v formal) : ∃ actual, r.actual? c v = some actual ∧
      r.Feeds actual.input formal.input ∧ r.Feeds formal.output actual.output := by
  have hcalls : r.Calls c g := by
    obtain ⟨x, _, _, _, _, hx, hg, _⟩ := hb
    exact ⟨x, hx, hg⟩
  exact (hr.closed g c hcalls).bound v formal hb

theorem Steady.feeds_of_flow (hr : r.Steady m) (h : r.Flow m a b) : r.Feeds a b := by
  cases h with
  | @variadic g y q hy hq ha hb =>
    have hv : r.variadic? g = some q := by
      rw [variadic?, formals?, hy, Option.map_some, Option.bind_some, hq]
    rw [ha, hb]
    exact hr.loops g q hv
  | passed hbind hact ha hb =>
    obtain ⟨actual, hact', hin, _⟩ := hr.bound hbind
    rw [hact] at hact'
    cases hact'
    rw [ha, hb]
    exact hin
  | returned hbind hact ha hb =>
    obtain ⟨actual, hact', _, hout⟩ := hr.bound hbind
    rw [hact] at hact'
    cases hact'
    rw [ha, hb]
    exact hout

/-! ## What callers have -/

/-- What a graph has it hands on to its callers, if it is no argument. -/
theorem handed_of_contains {y : Graph} {v : ValueId} (hn : ¬ m.IsArgument v)
    (hv : y.formals.contains v = true) :
    v ∈ y.formals.globals.keys ∨ v ∈ y.formals.own.keys ∧ ¬ m.IsArgument v := by
  obtain ⟨q, hq⟩ := Parameters.contains_eq_true_iff_at?.1 hv
  rcases hq with hq | hq
  · exact Or.inr ⟨OrderedMap.mem_keys.2 ⟨q, hq⟩, hn⟩
  · exact Or.inl (OrderedMap.mem_keys.2 ⟨q, hq⟩)

/-- What a graph hands on is no argument. -/
theorem Orderly.not_isArgument (hr : r.Orderly m) {y : Graph} {v : ValueId}
    (hy : r.graph? g = some y)
    (hv : v ∈ y.formals.globals.keys ∨ v ∈ y.formals.own.keys ∧ ¬ m.IsArgument v) :
    ¬ m.IsArgument v := by
  rcases hv with hv | ⟨_, hn⟩
  · obtain ⟨q, hq⟩ := OrderedMap.mem_keys.1 hv
    exact Module.not_isArgument_of_isGlobal (hr.sorted g y v q hy hq)
  · exact hn

theorem Steady.absorbed (hr : r.Steady m) (hl : r.Links g h) : r.Absorbed m g h := by
  obtain ⟨c, ho, hc⟩ := hl
  exact (hr.closed _ c hc).absorbed g ho

/-- Along a chain of links a graph has what the last one has. -/
theorem Steady.absorbed_chain (hr : r.Steady m) (hl : ReflTransGen r.Links g h) :
    r.Absorbed m g h := by
  induction hl with
  | refl => exact Work.absorbed_self m r g
  | @tail k h _ hkh ih =>
    -- what the last graph has is handed to the one before it, and from there on down the chain
    intro y z v hy hz hv
    have hnarg := hr.orderly.not_isArgument hz hv
    obtain ⟨c, ho, hc⟩ := hkh
    obtain ⟨k', x, ho', hx⟩ := hr.orderly.owner hc
    -- a call has one owner
    have hk : k' = k := OwnedBy.inj ho' ho
    subst hk
    have hxv := hr.absorbed ⟨c, ho, hc⟩ x z v hx hz hv
    exact ih y x v hy hx (handed_of_contains hnarg hxv)

end Registry

/-! ## Every run -/

/-- A module to look at: `main` allocates an object and hands it to `tick`, which reads `ticks`. -/
def Module.ticks : Module where
  name := "ticks"
  functions := #[⟨"main", ⟨1⟩, [], false, .void, [⟨0⟩]⟩, ⟨"tick", ⟨2⟩, [⟨3⟩], false, .void, [⟨1⟩]⟩,
    ⟨"malloc", ⟨4⟩, [], false, .ptr 0, []⟩]
  blocks := #[⟨⟨0⟩, none, [⟨5⟩, ⟨6⟩, ⟨7⟩]⟩, ⟨⟨1⟩, none, [⟨8⟩, ⟨9⟩]⟩]
  values := #[⟨.global, .ptr 0, some "ticks"⟩, ⟨.function ⟨0⟩, .ptr 0, none⟩,
    ⟨.function ⟨1⟩, .ptr 0, none⟩, ⟨.argument ⟨1⟩ 0, .ptr 0, none⟩, ⟨.function ⟨2⟩, .ptr 0, none⟩,
    ⟨.instruction ⟨⟨0⟩, ⟨0⟩, .call ⟨4⟩ []⟩, .ptr 0, none⟩,
    ⟨.instruction ⟨⟨0⟩, ⟨0⟩, .call ⟨2⟩ [⟨5⟩]⟩, .void, none⟩,
    ⟨.instruction ⟨⟨0⟩, ⟨0⟩, .ret none⟩, .void, none⟩,
    ⟨.instruction ⟨⟨1⟩, ⟨1⟩, .load ⟨0⟩⟩, .int 32, none⟩,
    ⟨.instruction ⟨⟨1⟩, ⟨1⟩, .ret none⟩, .void, none⟩]
  globals := [⟨0⟩]

/-- A result that passes a test is there. -/
theorem exists_ok_of_any {ε α : Type} {x : Except ε α} {p : α → Bool}
    (h : x.toOption.any p = true) : ∃ a, x = .ok a ∧ p a = true := by
  cases x with
  | error e => cases h
  | ok a => exact ⟨a, rfl, h⟩

namespace Session.Reachable

variable {m : Module} {s : Session}

/-- **Steadiness.** After every run the program is that of the start, and the registry is steady. -/
theorem steady (hs : Session.Reachable m s) : s.setup.program = m ∧ s.registry.Steady m := by
  induction hs with
  | start => exact ⟨rfl, .empty m⟩
  | @step s t a o _ hstep ih =>
    obtain ⟨hm, hr⟩ := ih
    rw [← hm] at hr
    -- the registry was steady under the setup of this step, whatever that was
    have hmoves := Session.moves hr.orderly hstep
    constructor
    · rw [Session.setup_of_step hstep, Session.program_reconfigure, hm]
    · rw [← hm]
      exact hr.moves hmoves

theorem orderly (hs : Session.Reachable m s) : s.registry.Orderly s.setup.program := by
  obtain ⟨hm, hr⟩ := hs.steady
  rw [hm]
  exact hr.orderly

/-- **Data edges.** After every run data flows between two nodes if and only if they are the two
ends of a variadic parameter, or a call that is linked to a graph passes a value to a formal
parameter of the graph, or takes it back, through these nodes. Where it does, it has an actual
parameter for it. -/
theorem feeds_iff_flow (hs : Session.Reachable m s) :
    (∀ a b, s.registry.Feeds a b ↔ s.registry.Flow m a b) ∧
      ∀ c g v formal, s.registry.Binds m c g v formal →
        ∃ actual, s.registry.actual? c v = some actual := by
  obtain ⟨_, hr⟩ := hs.steady
  constructor
  · intro a b
    exact ⟨hr.orderly.fed a b, hr.feeds_of_flow⟩
  · intro c g v formal hb
    obtain ⟨actual, hact, _⟩ := hr.bound hb
    exact ⟨actual, hact⟩

/-- The object that `main` allocates flows into the argument of `tick`. -/
theorem flow_of_ticks : ∃ o s, ((Session.start .ticks).step (.root none)).2 = .ok (o, s) ∧
    s.registry.Flow .ticks ⟨16⟩ ⟨7⟩ := by
  have hfeeds : ((Session.start .ticks).step (.root none)).2.toOption.any (fun p =>
      (p.2.registry.node? ⟨16⟩).any fun x => decide (⟨7⟩ ∈ x.feeds)) = true := by decide +kernel
  obtain ⟨⟨o, s⟩, hstep, htest⟩ := exists_ok_of_any hfeeds
  obtain ⟨x, hx, hmem⟩ := (Option.any_eq_true _ _).1 htest
  have hs : Session.Reachable .ticks s := .step .start hstep
  exact ⟨o, s, hstep, (hs.feeds_iff_flow.1 ⟨16⟩ ⟨7⟩).1 ⟨x, hx, by simpa using hmem⟩⟩

/-- **Upward closure.** After every run a graph has all globals and heap objects of every graph that
it is linked to, and so of every graph along a chain of links. -/
theorem formals_closed_upward (hs : Session.Reachable m s) :
    (∀ c g h, s.registry.OwnedBy c g → s.registry.Calls c h → s.registry.Absorbed m g h) ∧
      ∀ g h, ReflTransGen s.registry.Links g h → s.registry.Absorbed m g h := by
  obtain ⟨_, hr⟩ := hs.steady
  constructor
  · intro c g h ho hc
    exact hr.absorbed ⟨c, ho, hc⟩
  · intro g h hl
    exact hr.absorbed_chain hl

/-- The global that `tick` reads is a parameter of `main`, which calls it. -/
theorem main_has_ticks : ∃ o s y, ((Session.start .ticks).step (.root none)).2 = .ok (o, s) ∧
    s.registry.graph? ⟨0⟩ = some y ∧ y.formals.contains ⟨0⟩ = true := by
  have hlinked : ((Session.start .ticks).step (.root none)).2.toOption.any (fun p =>
      ((p.2.registry.graph? ⟨0⟩).isSome &&
        (p.2.registry.graph? ⟨1⟩).any fun z => decide (⟨0⟩ ∈ z.formals.globals.keys)) &&
      (p.2.registry.node? ⟨5⟩).any fun x => decide (⟨1⟩ ∈ x.callees ∧ x.graph? = some ⟨0⟩)) =
        true := by decide +kernel
  obtain ⟨⟨o, s⟩, hstep, htest⟩ := exists_ok_of_any hlinked
  obtain ⟨hgraphs, hnode⟩ := Bool.and_eq_true_iff.1 htest
  obtain ⟨hmain, htick⟩ := Bool.and_eq_true_iff.1 hgraphs
  obtain ⟨x, hx, hcall⟩ := (Option.any_eq_true _ _).1 hnode
  obtain ⟨z, hz, hv⟩ := (Option.any_eq_true _ _).1 htick
  obtain ⟨y, hy⟩ := Option.isSome_iff_exists.1 hmain
  obtain ⟨hc, ho⟩ := of_decide_eq_true hcall
  have hs : Session.Reachable .ticks s := .step .start hstep
  have habs := hs.formals_closed_upward.1 ⟨5⟩ ⟨0⟩ ⟨1⟩ ⟨x, hx, ho⟩ ⟨x, hx, hc⟩
  exact ⟨o, s, y, hstep, hy, habs y z ⟨0⟩ hy hz (Or.inl (of_decide_eq_true hv))⟩

end Session.Reachable

end Sdg
