import Sdg.Proofs.Session.Handles
import Sdg.Proofs.Session.Termination
import Sdg.Proofs.Session.Totality

/-!
# Portraits

Every live graph was drawn by the build that made it, and has kept its layout since. What it shows
of its function is told here without stages: the units are the blocks and their nodes are the
instructions, the edges between units are the successors, and which units control which others is
settled by the scopes and the loops. Nothing of this depends on what else was built, linked or torn
down, nor on what recursion there was.

Main results:

* `Session.Reachable.mirrors` — every live graph mirrors the body of its function, and there is no
  graph where a block has too many successors;
* `Session.Run.unit_controls` — control between units comes of scopes and loops alone.
-/

namespace Sdg

open Registry

/-! ## What a graph shows -/

namespace Registry

variable {m : Module} {e : Setup} {r s : Registry} {g : GraphId} {y z : Graph} {n : NodeId}
  {key : NodeKey} {t : Stage} {x : Function} {b : BlockId}

/-- A live node of the graph `g` that stands for `key` in a unit, or in none. -/
def Depicts (r : Registry) (g : GraphId) (n : NodeId) (key : NodeKey) (block? : Option BlockKey) :
    Prop :=
  ∃ w, r.node? n = some w ∧ w.key = key ∧ w.graph? = some g ∧ w.block? = block?

/-- The graph `g`, which looks like `y`, mirrors the body of the function `x`. -/
structure Mirrors (m : Module) (r : Registry) (g : GraphId) (y : Graph) (x : Function) : Prop where
  blocks : y.units.keys = x.blocks
  start : y.entryBlock? = x.blocks.head?
  entry : ∃ n, y.entryNode? = some n ∧ y.index.get? (.value x.value) = some n ∧
    r.Depicts g n (.value x.value) none
  /-- The nodes of a unit are those of the instructions of its block, in their order. -/
  unit : ∀ b ∈ x.blocks, ∃ z u, m.block b = .ok z ∧ y.unit? (.block b) = some u ∧
    List.Forall₂ (fun n v => y.index.get? (.value v) = some n ∧
      r.Depicts g n (.value v) (some (.block b))) u.nodes z.instructions
  /-- There is one exit, alone in its unit, and its kind tells whether there is a return. -/
  exit : ∃ kind n u, y.exitNode? = some n ∧ y.unit? .exit = some u ∧ u.nodes = [n] ∧
    y.index.get? (.exit y.function kind) = some n ∧
    r.Depicts g n (.exit y.function kind) (some .exit) ∧
    (kind = .returns ∧ (∃ v, m.InBody y.function v ∧ m.IsReturn v) ∨
      kind = .unreachable ∧ ∀ v, m.InBody y.function v → ¬ m.IsReturn v) ∧
    ∀ key, (∃ i, y.index.get? key = some i) ↔ key = .value x.value ∨
      (∃ v, m.InBody y.function v ∧ key = .value v) ∨ key = .exit y.function kind
  calls : ∀ c, c ∈ y.callNodes ↔
    ∃ v, m.InBody y.function v ∧ m.IsCall v ∧ y.index.get? (.value v) = some c
  /-- Successors are labelled by position, below the label of the edge to the exit. -/
  edges : ∀ b ∈ x.blocks, ∃ u ss, y.unit? (.block b) = some u ∧ m.successors b = .ok ss ∧
    ss.length ≤ exitLabel ∧ ∀ edge, edge ∈ u.successors ↔
      (∃ d i, ss[i]? = some d ∧ edge = ⟨.block d, i⟩) ∨ m.Returns b ∧ edge = ⟨.exit, exitLabel⟩

/-- A node that is indexed in a live graph stands for its key there. -/
theorem Orderly.exists_of_index (hr : r.Orderly m) (hy : r.graph? g = some y)
    (hn : y.index.get? key = some n) :
    ∃ w, r.node? n = some w ∧ w.key = key ∧ w.graph? = some g := by
  have hocc : r.occupant (.index g key) = some n := by
    rw [occupant, hy]
    exact hn
  exact hr.housed.live _ _ hocc

/-- So it stands in the unit that has it. -/
theorem Complete.depicts (hr : r.Complete m) (hy : r.graph? g = some y)
    (hn : y.index.get? key = some n) {k : BlockKey} {u : BlockUnit} (hu : y.unit? k = some u)
    (hmem : n ∈ u.nodes) : r.Depicts g n key (some k) := by
  obtain ⟨w, hw, hkey, hgraph⟩ := hr.orderly.exists_of_index hy hn
  obtain ⟨w', hw', hblock, _⟩ := (hr.whole g y hy).draft.placed k u hu n hmem
  rw [hw] at hw'
  cases hw'
  exact ⟨w, hw, hkey, hgraph, hblock⟩

end Registry

namespace Stage

variable {e : Setup} {f : FunctionId} {x : Function} {t : Stage} {y : Graph} {b : BlockId}

/-- The exit of a finished body is that of its returns, if it has any. -/
theorem Complete.exists_exit (h : t.Complete e f x) : ∃ kind, t.exit? = some kind ∧
    (kind = .returns ∧ (∃ v, e.program.InBody f v ∧ e.program.IsReturn v) ∨
      kind = .unreachable ∧ ∀ v, e.program.InBody f v → ¬ e.program.IsReturn v) := by
  rcases h.exit with ⟨ht, hno⟩ | ⟨ht, b, v, hv, hret⟩
  · refine ⟨_, ht, Or.inr ⟨rfl, fun v hv => ?_⟩⟩
    obtain ⟨b, hb⟩ := h.inBody_iff.1 hv
    exact hno b v hb
  · exact ⟨_, ht, Or.inl ⟨rfl, v, h.inBody_iff.2 ⟨b, hv⟩, hret⟩⟩

/-- What has a node in a finished body: the entry, the instructions and the exit. -/
theorem Complete.keys_iff (h : t.Complete e f x) {kind : ExitKind} (hkind : t.exit? = some kind)
    (key : NodeKey) : t.Keys x f key ↔ key = .value x.value ∨
      (∃ v, e.program.InBody f v ∧ key = .value v) ∨ key = .exit f kind := by
  unfold Stage.Keys
  refine or_congr_right (or_congr ?_ (by simp [hkind]))
  constructor
  · rintro ⟨b, v, hv, rfl⟩
    exact ⟨v, h.inBody_iff.2 ⟨b, hv⟩, rfl⟩
  · rintro ⟨v, hv, rfl⟩
    obtain ⟨b, hb⟩ := h.inBody_iff.1 hv
    exact ⟨b, v, hb, rfl⟩

/-- The edges of a unit are those that its block asks for. -/
theorem Complete.mem_successors_iff (h : t.Complete e f x) (hs : t.Shows x f y) (hb : b ∈ x.blocks)
    {u : BlockUnit} (hu : y.unit? (.block b) = some u) {ss : List BlockId}
    (hss : e.program.successors b = .ok ss) (edge : UnitEdge) : edge ∈ u.successors ↔
      (∃ d i, ss[i]? = some d ∧ edge = ⟨.block d, i⟩) ∨
        e.program.Returns b ∧ edge = ⟨.exit, exitLabel⟩ := by
  obtain ⟨other, label⟩ := edge
  rw [← hs.leads_iff_mem hu, h.leads]
  constructor
  · rintro (⟨_, hss', hd⟩ | ⟨_, hret⟩)
    · rw [hss] at hss'
      cases hss'
      exact Or.inl ⟨_, _, hd, rfl⟩
    · exact Or.inr ⟨hret, rfl⟩
  · rintro (⟨d, i, hd, he⟩ | ⟨hret, he⟩)
    · cases he
      exact .flow hb hss hd
    · cases he
      exact .exit hb hret

end Stage

namespace Registry

variable {e : Setup} {r : Registry} {g : GraphId} {y : Graph}

/-- **Mirrors.** A graph that is drawn mirrors the body of its function. -/
theorem Drawn.exists_mirror (h : r.Drawn e y) (hr : r.Complete e.program)
    (hy : r.graph? g = some y) :
    ∃ x, e.program.function y.function = .ok x ∧ r.Mirrors e.program g y x := by
  obtain ⟨haside, t, x, hs, hc⟩ := h
  refine ⟨x, hc.function, ?_⟩
  -- at the last stage each block of the function has its unit
  have hunit : ∀ b ∈ x.blocks, ∃ u, y.unit? (.block b) = some u := fun b hb =>
    hs.exists_unit.2 (hc.blocks ▸ hb)
  constructor
  case blocks => exact hs.blocks.trans hc.blocks
  case start => exact hs.start.trans hc.start
  case entry =>
    obtain ⟨n, hn, hi⟩ := hs.entry
    obtain ⟨w, hw, hkey, hgraph⟩ := hr.orderly.exists_of_index hy hi
    exact ⟨n, hn, hi, w, hw, hkey, hgraph, (haside n hn).2 w hw⟩
  case unit =>
    intro b hb
    obtain ⟨u, hu⟩ := hunit b hb
    obtain ⟨z, hz, hvalues⟩ := hc.values b hb
    -- nodes and instructions are listed in one order, so they match place by place
    have hnodes := hs.nodes b u hu
    rw [hvalues] at hnodes
    refine ⟨z, u, hz, hu, List.forall₂_iff_get.2 ⟨hnodes.length_eq, fun i hi hi' => ?_⟩⟩
    have hget := (List.forall₂_iff_get.1 hnodes).2 i hi hi'
    exact ⟨hget, hr.depicts hy hget hu (List.get_mem _ _)⟩
  case exit =>
    obtain ⟨kind, hkind, hreturns⟩ := hc.exists_exit
    rcases hs.exit with ⟨_, _, hn⟩ | ⟨n, u, kind', hn, hu, hnodes, hk, hi⟩
    · rw [hkind] at hn
      cases hn
    · rw [hkind] at hk
      cases hk
      have hmem : n ∈ u.nodes := by
        rw [hnodes]
        exact List.mem_singleton_self n
      refine ⟨kind, n, u, hn, hu, hnodes, hi, hr.depicts hy hi hu hmem, hreturns, fun key => ?_⟩
      rw [hs.index]
      exact hc.keys_iff hkind key
  case calls =>
    intro c
    rw [hs.calls]
    constructor
    · rintro ⟨v, hv, hi⟩
      obtain ⟨hbody, hcall⟩ := (hc.calls v).1 hv
      exact ⟨v, hc.inBody_iff.2 hbody, hcall, hi⟩
    · rintro ⟨v, hv, hcall, hi⟩
      exact ⟨v, (hc.calls v).2 ⟨hc.inBody_iff.1 hv, hcall⟩, hi⟩
  case edges =>
    intro b hb
    obtain ⟨u, hu⟩ := hunit b hb
    obtain ⟨ss, hss, hlength⟩ := hc.few b hb
    exact ⟨u, ss, hu, hss, hlength, hc.mem_successors_iff hs hb hu hss⟩

end Registry

namespace Graph

variable {e : Setup} {y : Graph} {k c : BlockKey} {w : BlockUnit}

/-- Control between the units of the graph is what the setup asks for. -/
structure Governed (e : Setup) (y : Graph) (x : Function) : Prop where
  /-- A unit with more than one edge controls its scope, where scopes are on, and itself, where
  loops are on and one of its edges goes back to it. No other unit is controlled. -/
  controls : ∀ b ∈ x.blocks, ∃ w, y.unit? (.block b) = some w ∧ ∀ k, k ∈ w.controls ↔
    1 < w.successors.size ∧ ∃ c, k = .block c ∧
      (e.settings.controlScopes = true ∧
          (∃ scope, e.scopes e.program y.function = .ok scope ∧ c ∈ scope b) ∨
        e.settings.selfLoops = true ∧ (∃ l, ⟨.block b, l⟩ ∈ w.successors) ∧ c = b)
  controlledBy : ∀ k w, y.unit? k = some w → ∀ c, c ∈ w.controlledBy ↔
    ∃ v, y.unit? c = some v ∧ k ∈ v.controls
  exit : ∃ w, y.unit? .exit = some w ∧ ∀ c, c ∉ w.controls ∧ c ∉ w.controlledBy

end Graph

namespace Registry

variable {e : Setup} {r s : Registry} {g : GraphId} {y z : Graph} {a c : BlockKey}

/-- What controls what does not depend on whether phis are controlled. -/
theorem Drawn.of_phi {phi : Bool} (h : r.Drawn { e with
    settings := { e.settings with phiControl := phi } } y) : r.Drawn e y := by
  obtain ⟨haside, t, x, hs, hc⟩ := h
  refine ⟨haside, t, x, hs, hc.function, hc.blocks, hc.start, hc.values, hc.placed, hc.calls,
    hc.exit, hc.few, hc.leads, fun a c => (hc.governs a c).trans ?_⟩
  constructor <;> rintro (⟨hon, hb, hscope, hd⟩ | ⟨hon, hb, hl⟩)
  · exact .scope hon hb hscope hd
  · exact .loop hon hb hl
  · exact .scope hon hb hscope hd
  · exact .loop hon hb hl

/-- Two graphs of a function that are drawn under one setup have the same control edges. -/
theorem Drawn.governs_iff (h : r.Drawn e y) (h' : s.Drawn e z) (hf : z.function = y.function) :
    y.Governs a c ↔ z.Governs a c := by
  obtain ⟨_, t, x, hs, hc⟩ := h
  obtain ⟨_, t', x', hs', hc'⟩ := h'
  have hx := hc'.function
  rw [hf, hc.function] at hx
  cases hx
  rw [hs.governs, hs'.governs, hc.governs, hc'.governs, hf]

/-- **Control.** Control between the units of a graph that is drawn is what the setup asks for. -/
theorem Drawn.governed (h : r.Drawn e y) (hr : r.Complete e.program) (hy : r.graph? g = some y) :
    ∃ x, e.program.function y.function = .ok x ∧ y.Governed e x := by
  obtain ⟨_, t, x, hs, hc⟩ := h
  have hgoverns : ∀ a c, y.Governs a c ↔ e.UnitControl y.function x a c := fun a c =>
    (hs.governs a c).trans (hc.governs a c)
  have htransposed := (hr.orderly.shaped g y hy).governs
  refine ⟨x, hc.function, ⟨fun b hb => ?_, fun k w hw c => ?_, ?_⟩⟩
  · obtain ⟨w, hw⟩ := hs.exists_unit.2 (hc.blocks ▸ hb)
    refine ⟨w, hw, fun k => ?_⟩
    -- whether a unit branches, and whether it leads to itself, is seen at its successors
    have hbranches : 1 < w.successors.size ↔ e.program.Branches x (.block b) := by
      rw [← hc.branches_iff, ← hs.decides_iff hw]
      exact decide_eq_true_iff.symm
    have hloop : ∀ l, (⟨.block b, l⟩ : UnitEdge) ∈ w.successors ↔
        e.program.UnitEdge x (.block b) (.block b) l := by
      intro l
      rw [← hc.leads, hs.leads_iff_mem hw]
    rw [← Graph.governs_iff_mem hw, hgoverns, hbranches]
    constructor
    · rintro (⟨hon, hb, hscope, hd⟩ | ⟨hon, hb, hl⟩)
      · exact ⟨hb, _, rfl, Or.inl ⟨hon, _, hscope, hd⟩⟩
      · exact ⟨hb, _, rfl, Or.inr ⟨hon, ⟨_, (hloop _).2 hl⟩, rfl⟩⟩
    · rintro ⟨hb, c, rfl, ⟨hon, _, hscope, hd⟩ | ⟨hon, ⟨l, hl⟩, rfl⟩⟩
      · exact .scope hon hb hscope hd
      · exact .loop hon hb ((hloop l).1 hl)
  · rw [← Graph.governedBy_iff_mem hw]
    exact (htransposed c k).symm
  · rcases hs.exit with ⟨_, _, hn⟩ | ⟨_, w, _, _, hw, _⟩
    · rcases hc.exit with ⟨hsome, _⟩ | ⟨hsome, _⟩ <;>
      · rw [hn] at hsome
        cases hsome
    · -- only blocks control, and only blocks are controlled
      refine ⟨w, hw, fun c => ⟨fun hmem => ?_, fun hmem => ?_⟩⟩
      · have hp := (hgoverns _ _).1 ((Graph.governs_iff_mem hw).2 hmem)
        cases hp
      · have hp := (hgoverns _ _).1 ((htransposed _ _).2 ((Graph.governedBy_iff_mem hw).2 hmem))
        cases hp

end Registry

/-! ## Every run -/

/-- A module to look at: the first block of `main` has 256 successors. -/
def Module.fan : Module where
  name := "fan"
  functions := #[⟨"main", ⟨0⟩, [], false, .void, [⟨0⟩, ⟨1⟩]⟩]
  blocks := #[⟨⟨0⟩, none, [⟨2⟩]⟩, ⟨⟨0⟩, none, [⟨3⟩]⟩]
  values := #[⟨.function ⟨0⟩, .ptr 0, none⟩, ⟨.constant, .int 32, none⟩,
    ⟨.instruction ⟨⟨0⟩, ⟨0⟩, .switch ⟨1⟩ ⟨1⟩ (List.replicate 255 ⟨1⟩)⟩, .void, none⟩,
    ⟨.instruction ⟨⟨0⟩, ⟨1⟩, .ret none⟩, .void, none⟩]
  globals := []

/-- A module to look at: the second block of `main` may go back to itself. -/
def Module.spin : Module where
  name := "spin"
  functions := #[⟨"main", ⟨0⟩, [], false, .void, [⟨0⟩, ⟨1⟩, ⟨2⟩]⟩]
  blocks := #[⟨⟨0⟩, none, [⟨2⟩]⟩, ⟨⟨0⟩, none, [⟨3⟩]⟩, ⟨⟨0⟩, none, [⟨4⟩]⟩]
  values := #[⟨.function ⟨0⟩, .ptr 0, none⟩, ⟨.constant, .int 1, none⟩,
    ⟨.instruction ⟨⟨0⟩, ⟨0⟩, .branch ⟨1⟩⟩, .void, none⟩,
    ⟨.instruction ⟨⟨0⟩, ⟨1⟩, .condBranch ⟨1⟩ ⟨1⟩ ⟨2⟩⟩, .void, none⟩,
    ⟨.instruction ⟨⟨0⟩, ⟨2⟩, .ret none⟩, .void, none⟩]
  globals := []

namespace Session

variable {m : Module} {s t u : Session} {a : Step} {o : Outcome} {log : List Entry} {g : GraphId}
  {y z : Graph} {f : FunctionId} {x : Function} {b : BlockId}

/-- Every graph was drawn under some setup on the module, whichever it was. -/
theorem Reachable.drawn (hs : Reachable m s) (hy : s.registry.graph? g = some y) :
    ∃ e : Setup, e.program = m ∧ s.registry.Drawn e y := by
  induction hs generalizing g y with
  | start => cases hy
  | @step s t a o hs hstep ih =>
    have hdraws := draws_of_step hstep
    cases hw : s.registry.graph? g with
    | none => exact ⟨s.setup, hs.steady.1, hdraws.drawn g y hw hy⟩
    | some w =>
      obtain ⟨e, he, hd⟩ := ih hw
      exact ⟨e, he, hd.ages hdraws.ages (hdraws.kept g w y hw hy)⟩

theorem Reachable.exists_mirror (hs : Reachable m s) (hy : s.registry.graph? g = some y) :
    ∃ x, m.function y.function = .ok x ∧ s.registry.Mirrors m g y x := by
  obtain ⟨e, rfl, hd⟩ := hs.drawn hy
  exact hd.exists_mirror hs.complete hy

/-- A function has no graph if one of its blocks has too many successors. -/
theorem Reachable.no_graph {ss : List BlockId} (hs : Reachable m s) (hx : m.function f = .ok x)
    (hb : b ∈ x.blocks) (hss : m.successors b = .ok ss) (hlong : exitLabel < ss.length) :
    ¬ s.registry.Hosts g f := by
  intro hp
  obtain ⟨y, hy, rfl⟩ := hp
  obtain ⟨x', hx', hmirror⟩ := hs.exists_mirror hy
  rw [hx] at hx'
  cases hx'
  obtain ⟨_, ss', _, hss', hlength, _⟩ := hmirror.edges b hb
  rw [hss] at hss'
  cases hss'
  omega

/-- A step that is not taken fails in a fault that says something. -/
theorem Reachable.exists_fault (hs : Reachable m s)
    (h : ∀ o t, (s.step a).2 ≠ .ok (o, t)) : ∃ φ, (s.step a).2 = .error φ ∧ φ ≠ .exhausted := by
  have hends := not_exhausted (effect_work hs.orderly a)
  cases hresult : (s.step a).2 with
  | ok p => exact absurd hresult (h p.1 p.2)
  | error φ => exact ⟨φ, rfl, fun he => hends (by rw [hresult, he])⟩

/-- **Mirrors.** After every run each live graph mirrors the body of its function. Where a block has
more successors than there are labels below that of the exit, there is no graph, and asking for one
fails. -/
theorem Reachable.mirrors (hs : Reachable m s) :
    (∀ g y, s.registry.graph? g = some y →
      ∃ x, m.function y.function = .ok x ∧ s.registry.Mirrors m g y x) ∧
    ∀ f x b ss, m.function f = .ok x → b ∈ x.blocks → m.successors b = .ok ss →
      exitLabel < ss.length →
        s.registry.lookup? f = none ∧
        (∃ φ, (s.step (.getOrBuild f)).2 = .error φ ∧ φ ≠ .exhausted) ∧
        ∀ name?, m.functionNamed? (name?.getD s.setup.settings.entry) = some f →
          ∃ φ, (s.step (.root name?)).2 = .error φ ∧ φ ≠ .exhausted := by
  refine ⟨fun g y => hs.exists_mirror, fun f x b ss hx hb hss hlong => ⟨?_, ?_, ?_⟩⟩
  · refine Option.eq_none_iff_forall_ne_some.2 fun g hg => ?_
    exact hs.no_graph hx hb hss hlong (hs.orderly.enrolled.hosts hg)
  · refine hs.exists_fault fun o t hstep => ?_
    -- what is answered would be a graph of the function
    have ht : Reachable m t := .step hs hstep
    have hgiven := Session.effect hs.orderly hstep
    generalize hr : t.registry = r at hgiven
    cases hgiven with
    | given _ hhosts => exact ht.no_graph hx hb hss hlong (hr ▸ hhosts)
  · intro name? hname
    refine hs.exists_fault fun o t hstep => ?_
    have ht : Reachable m t := .step hs hstep
    have hm := hs.steady.1
    have hdef : m.Defines f := ⟨x, hx, by
      rw [Function.isDefined, List.isEmpty_eq_false_iff_exists_mem.2 ⟨b, hb⟩]
      rfl⟩
    rw [← hm] at hname hdef
    have hc : s.registry.Complete s.setup.program := hm ▸ hs.complete
    have hw : Work.wp s.setup.Blames (s.work (.root name?)) (fun o _ => ∃ g, o = .graph g)
        s.registry := by
      refine Work.wp_bind (Work.constructRoot_complete hc _) fun root? r hpost => ?_
      obtain ⟨g, rfl⟩ := hpost.2 f hname hdef
      exact Work.wp_pure ⟨g, rfl⟩
    obtain ⟨g, rfl⟩ := of_step hw hstep
    have hhosts := (Session.effect hs.orderly hstep).hosts_of_root hname
    exact ht.no_graph hx hb hss hlong hhosts

/-- In a graph of `ticks` all nodes are where they belong, and no graph is made of a block with 256
successors. -/
theorem Reachable.mirrors_of_ticks : (∃ o s y x,
    ((Session.start .ticks).step (.root none)).2 = .ok (o, s) ∧
      s.registry.graph? ⟨0⟩ = some y ∧ s.registry.Mirrors .ticks ⟨0⟩ y x) ∧
    ∃ φ, ((Session.start .fan).step (.getOrBuild ⟨0⟩)).2 = .error φ := by
  constructor
  · have hbuilt : ((Session.start .ticks).step (.root none)).2.toOption.any (fun p =>
        (p.2.registry.graph? ⟨0⟩).isSome) = true := by decide +kernel
    obtain ⟨⟨o, s⟩, hstep, htest⟩ := exists_ok_of_any hbuilt
    obtain ⟨y, hy⟩ := Option.isSome_iff_exists.1 htest
    have hs : Reachable .ticks s := .step .start hstep
    obtain ⟨x, _, hmirror⟩ := hs.mirrors.1 ⟨0⟩ y hy
    exact ⟨o, s, y, x, hstep, hy, hmirror⟩
  · have hs : Reachable .fan (.start .fan) := .start
    have hb : (⟨0⟩ : BlockId) ∈ [(⟨0⟩ : BlockId), ⟨1⟩] := List.mem_cons_self
    obtain ⟨_, ⟨φ, hφ, _⟩, _⟩ := hs.mirrors.2 ⟨0⟩ _ ⟨0⟩ _ rfl hb rfl (by decide +kernel)
    exact ⟨φ, hφ⟩

/-! ## Control between units -/

theorem Run.reachable_after (hs : Reachable m s) (h : Run s log t) : Reachable m t := by
  induction h with
  | nil => exact hs
  | cons _ hstep ih => exact .step ih hstep

/-- **Control between units.** A graph that is made in a step has the control edges between units
that the setup of that step asks for. Whatever steps follow, they stay what they are for as long as
the graph is there, and they are the same whether or not phis are controlled. -/
theorem Run.unit_controls (hs : Reachable m s) (hstep : (s.step a).2 = .ok (o, t))
    (hn : s.registry.graph? g = none) (hy : t.registry.graph? g = some y) (hrun : Run t log u)
    (hz : u.registry.graph? g = some z) :
    (∃ x, m.function z.function = .ok x ∧ z.Governed s.setup x) ∧
      (∀ k w, z.unit? k = some w → ∃ v, y.unit? k = some v ∧ w.controls = v.controls ∧
        w.controlledBy = v.controlledBy) ∧
      ∀ (phi : Bool) (s' t' : Session) (a' : Step) (o' : Outcome) (g' : GraphId) (y' : Graph),
        Reachable m s' → s'.setup = { s.setup with
          settings := { s.setup.settings with phiControl := phi } } →
        (s'.step a').2 = .ok (o', t') → s'.registry.graph? g' = none →
        t'.registry.graph? g' = some y' → y'.function = z.function →
        ∀ k w w', z.unit? k = some w → y'.unit? k = some w' →
          ∀ c, (c ∈ w.controls ↔ c ∈ w'.controls) ∧ (c ∈ w.controlledBy ↔ c ∈ w'.controlledBy) := by
  have hm := hs.steady.1
  have ht : Reachable m t := .step hs hstep
  have hu := hrun.reachable_after ht
  have hlayout := hrun.kept hy hz
  -- what was drawn in the step is in the layout, which the graph keeps as long as it is there
  have hdrawn : u.registry.Drawn s.setup z :=
    ((draws_of_step hstep).drawn g y hn hy).ages hrun.ages hlayout
  have hcu : u.registry.Complete s.setup.program := hm ▸ hu.complete
  refine ⟨?_, fun k w hw => ?_, ?_⟩
  · rw [← hm]
    exact hdrawn.governed hcu hz
  · obtain ⟨v, hv, hbare⟩ := Graph.exists_unit_of_layout hlayout hw
    have hcontrols : w.bare.controls = v.bare.controls := by rw [hbare]
    have hcontrolledBy : w.bare.controlledBy = v.bare.controlledBy := by rw [hbare]
    exact ⟨v, hv, hcontrols, hcontrolledBy⟩
  · intro phi s' t' a' o' g' y' hs' hsetup hstep' hn' hy' hf k w w' hw hw' c
    have hdrawn' := (draws_of_step hstep').drawn g' y' hn' hy'
    have ht' : Reachable m t' := .step hs' hstep'
    rw [hsetup] at hdrawn'
    have hct : t'.registry.Complete s.setup.program := hm ▸ ht'.complete
    -- whether phis are controlled plays no part in control between units
    have hsame : ∀ a c, z.Governs a c ↔ y'.Governs a c := fun _ _ =>
      hdrawn.governs_iff hdrawn'.of_phi hf
    refine ⟨?_, ?_⟩
    · rw [← Graph.governs_iff_mem hw, ← Graph.governs_iff_mem hw', hsame]
    · rw [← Graph.governedBy_iff_mem hw, ← Graph.governedBy_iff_mem hw',
        ← (hcu.orderly.shaped g z hz).governs, ← (hct.orderly.shaped g' y' hy').governs, hsame]

/-- Scopes for `spin`: whether its loop ends decides about its last block. -/
def spinScopes : ScopeProvider := listedScopes [(⟨1⟩, [⟨2⟩])]

/-- The block of `spin` that may go back to itself controls its scope and itself. -/
theorem Run.unit_controls_of_spin : ∃ o s o' t y w,
    ((Session.start .spin).step (.setScopes spinScopes)).2 = .ok (o, s) ∧
      (s.step (.root none)).2 = .ok (o', t) ∧ t.registry.graph? ⟨0⟩ = some y ∧
      y.unit? (.block ⟨1⟩) = some w ∧ .block ⟨1⟩ ∈ w.controls ∧ .block ⟨2⟩ ∈ w.controls := by
  have hset : ((Session.start .spin).step (.setScopes spinScopes)).2 =
      .ok (.nothing, ⟨{ Setup.standard .spin with scopes := spinScopes }, .empty⟩) := rfl
  have hbuilt : (Session.step ⟨{ Setup.standard .spin with scopes := spinScopes }, .empty⟩
      (.root none)).2.toOption.any (fun p =>
        (p.2.registry.graph? ⟨0⟩).any fun y => (y.units.get? ⟨1⟩).any fun w =>
          decide (1 < w.successors.size ∧ ⟨.block ⟨1⟩, 0⟩ ∈ w.successors ∧
            y.function = ⟨0⟩)) = true := by decide +kernel
  obtain ⟨⟨o, t⟩, hstep, htest⟩ := exists_ok_of_any hbuilt
  obtain ⟨y, hy, htest⟩ := (Option.any_eq_true _ _).1 htest
  obtain ⟨w, hw, htest⟩ := (Option.any_eq_true _ _).1 htest
  obtain ⟨hsize, hloop, hf⟩ := of_decide_eq_true htest
  have hs : Reachable .spin ⟨{ Setup.standard .spin with scopes := spinScopes }, .empty⟩ :=
    .step .start hset
  obtain ⟨⟨x, hx, hgoverned⟩, _⟩ := Run.unit_controls hs hstep rfl hy .nil hy
  rw [hf] at hx
  cases hx
  obtain ⟨w', hw', hcontrols⟩ := hgoverned.controls ⟨1⟩ (by decide)
  rw [show y.unit? (.block ⟨1⟩) = some w from hw] at hw'
  cases hw'
  refine ⟨_, _, o, t, y, w, hset, hstep, hy, hw, ?_, ?_⟩
  · exact (hcontrols _).2 ⟨hsize, _, rfl, Or.inr ⟨rfl, ⟨0, hloop⟩, rfl⟩⟩
  · exact (hcontrols _).2 ⟨hsize, _, rfl, Or.inl ⟨rfl, _, rfl, by decide⟩⟩

end Session

end Sdg
