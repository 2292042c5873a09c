import Mathlib.Logic.Relation
import Sdg.Proofs.Formals.Access
import Sdg.Proofs.Formals.Binding
import Sdg.Proofs.Registry.Roster
import Sdg.Proofs.Registry.Shape

/-!
# Changes

What building can do to a registry, said once. A change is one of three kinds: one that only spreads
parameters (`Spread`), one that leaves parameters and links alone (`Quiet`), or a new link. Each has
its guards, and what a formal parameter, a data edge or a link is there for is part of them. Every
piece of work but teardown is a sequence of changes, and every invariant of the theory is proved by
going through the changes.

Main result:

* `Change.grows` — a change takes nothing away that stands between live nodes and graphs.
-/

namespace Sdg

/-! ## The elementary changes as functions -/

namespace Registry

/-- Gives a graph a formal parameter. -/
def giveFormal (r : Registry) (g : GraphId) (key : NodeKey) (s : Slot) : Registry :=
  (r.pushPair g key).reviseGraph g fun y => { y with formals := y.formals.put s r.nextPair }

/-- Gives a call of the graph `g` an actual parameter. -/
def giveActual (r : Registry) (c : NodeId) (g : GraphId) (key : NodeKey) (s : Slot) : Registry :=
  (r.pushPair g key).reviseNode c fun x => { x with actuals? := some (x.actuals.put s r.nextPair) }

/-- Gives a graph an indexed node. -/
def giveNode (r : Registry) (g : GraphId) (key : NodeKey) (block? : Option BlockKey) : Registry :=
  (r.pushNode (.fresh key (some g) block?)).reviseGraph g
    fun y => { y with index := y.index.insert key r.nextNode }

/-- Gives a global its shared node. -/
def giveShared (r : Registry) (v : ValueId) : Registry :=
  { r.pushNode (.fresh (.value v) none none) with pool := r.pool.insert v r.nextNode }

/-- Links the call `c` to the graph `g`. -/
def link (r : Registry) (c : NodeId) (g : GraphId) : Registry :=
  (r.reviseNode c fun x => { x with callees := x.callees.insert g }).reviseGraph g
    fun y => { y with callers := y.callers.insert c, refcount := y.refcount + 1 }

/-- The node `c` is indexed in the graph `g`, and is listed there as a call, which has these
arguments. -/
def IsCall (m : Module) (r : Registry) (c : NodeId) (g : GraphId) (args : List ValueId) : Prop :=
  ∃ x y callee, r.node? c = some x ∧ x.graph? = some g ∧ r.graph? g = some y ∧
    y.index.get? x.key = some c ∧ m.operation? x.key = .ok (some (.call callee args)) ∧
      c ∈ y.callNodes

/-- A call in the body of the graph `g` may run the function of the graph `h`. -/
def MayLink (e : Setup) (r : Registry) (g h : GraphId) : Prop :=
  ∃ y z, r.graph? g = some y ∧ r.graph? h = some z ∧ e.Runs y.function z.function

/-- The call `c` in the body of the graph `g` may run the function of the graph `h`. -/
def MayCall (e : Setup) (r : Registry) (c : NodeId) (g h : GraphId) : Prop :=
  ∃ v x y z, r.node? c = some x ∧ x.key = .value v ∧ r.graph? g = some y ∧ r.graph? h = some z ∧
    e.program.InBody y.function v ∧ e.MayRun v z.function

theorem MayCall.mayLink {e : Setup} {r : Registry} {c : NodeId} {g h : GraphId}
    (hm : r.MayCall e c g h) : r.MayLink e g h := by
  obtain ⟨v, _, y, z, _, _, hy, hz, hv, hruns⟩ := hm
  exact ⟨y, z, hy, hz, v, hv, hruns⟩

end Registry

/-! ## Why a formal parameter is there -/

/-- Why the graph `g`, which looks like `y`, may get a formal parameter. -/
inductive Reason (e : Setup) (r : Registry) (g : GraphId) (y : Graph) : Slot → Prop where
  | declared {f : Function} {v : ValueId} : e.program.function y.function = .ok f →
      v ∈ f.params → Reason e r g y (.own v)
  | variadic {f : Function} : e.program.function y.function = .ok f → f.isVariadic = true →
      Reason e r g y .variadic
  | touched {v : ValueId} : e.program.Touches y.function v → Reason e r g y (.global v)
  | allocated {v : ValueId} : e.Allocates y.function v → Reason e r g y (.own v)
  /-- A graph that it calls has the global. -/
  | handedGlobal {h : GraphId} {z : Graph} {v : ValueId} : r.Links g h → r.graph? h = some z →
      v ∈ z.formals.globals.keys → Reason e r g y (.global v)
  /-- A graph that it calls has the heap object. -/
  | handedHeap {h : GraphId} {z : Graph} {v : ValueId} : r.Links g h → r.graph? h = some z →
      v ∈ z.formals.own.keys → ¬ e.program.IsArgument v → Reason e r g y (.own v)

/-! ## Changes -/

/-- A change on the way of parameters to the callers. -/
inductive Spread (e : Setup) : Registry → Registry → Prop where
  | formal {r : Registry} {g : GraphId} {y : Graph} {key : NodeKey} {s : Slot} :
      r.graph? g = some y → y.formals.Vacant s → Reason e r g y s →
      (∀ v, s = .own v ∨ s = .global v → key = .value v) → Spread e r (r.giveFormal g key s)
  | actual {r : Registry} {c : NodeId} {g : GraphId} {x : Node} {args : List ValueId}
      {key : NodeKey} {s : Slot} : r.IsCall e.program c g args → r.node? c = some x →
      x.actuals.Vacant s → (∀ v, s = .own v ∨ s = .global v → key = .value v) →
      Spread e r (r.giveActual c g key s)
  | control {r : Registry} {a b : NodeId} {x y : Node} : r.node? a = some x →
      r.node? b = some y → Spread e r (r.control a b)
  | feed {r : Registry} {a b : NodeId} {x y : Node} : r.node? a = some x → r.node? b = some y →
      r.Flow e.program a b → Spread e r (r.feed a b)

/-- Whether two graphs agree in all that parameters and links are about; there may be more calls
listed. -/
structure Graph.SameCore (y z : Graph) : Prop where
  function : z.function = y.function
  phase : z.phase = y.phase
  refcount : z.refcount = y.refcount
  index : z.index = y.index
  formals : z.formals = y.formals
  callers : z.callers = y.callers
  callNodes : ∀ c ∈ y.callNodes, c ∈ z.callNodes

section

variable {y z : Graph}

theorem Graph.SameCore.refl (y : Graph) : y.SameCore y :=
  ⟨rfl, rfl, rfl, rfl, rfl, rfl, fun _ h => h⟩

theorem Graph.SameCore.modifyUnit (y : Graph) (k : BlockKey) (f : BlockUnit → BlockUnit) :
    y.SameCore (y.modifyUnit k f) := by
  cases k <;> exact ⟨rfl, rfl, rfl, rfl, rfl, rfl, fun _ h => h⟩

theorem Graph.SameCore.openUnit (y : Graph) (k : BlockKey) (n : NodeId) :
    y.SameCore (y.openUnit k n) := by
  cases k <;> exact ⟨rfl, rfl, rfl, rfl, rfl, rfl, fun _ h => h⟩

theorem Graph.SameCore.trans {x : Graph} (h : x.SameCore y) (h' : y.SameCore z) : x.SameCore z where
  function := h'.function.trans h.function
  phase := h'.phase.trans h.phase
  refcount := h'.refcount.trans h.refcount
  index := h'.index.trans h.index
  formals := h'.formals.trans h.formals
  callers := h'.callers.trans h.callers
  callNodes c hc := h'.callNodes c (h.callNodes c hc)

theorem Graph.SameCore.lead (y : Graph) (a b : BlockKey) (label : Nat) :
    y.SameCore (y.lead a b label) :=
  .trans (.modifyUnit y a _) (.modifyUnit _ b _)

theorem Graph.SameCore.govern (y : Graph) (a b : BlockKey) : y.SameCore (y.govern a b) :=
  .trans (.modifyUnit y a _) (.modifyUnit _ b _)

end

/-- A change that leaves parameters and links alone. -/
inductive Quiet (m : Module) : Registry → Registry → Prop where
  | shared {r : Registry} {v : ValueId} : r.pool.get? v = none → Quiet m r (r.giveShared v)
  | graph {r : Registry} {f : FunctionId} : r.lookup? f = none → Quiet m r (r.pushGraph (.fresh f))
  | node {r : Registry} {g : GraphId} {y : Graph} {key : NodeKey} {block? : Option BlockKey} :
      r.graph? g = some y → y.index.get? key = none → Quiet m r (r.giveNode g key block?)
  /-- Entries in a graph, which keep its shape. -/
  | dress {r : Registry} {g : GraphId} {f : Graph → Graph} : (∀ y : Graph, y.SameCore (f y)) →
      (∀ y, r.graph? g = some y → y.Shaped m → (f y).Shaped m) → Quiet m r (r.reviseGraph g f)
  | phase {r : Registry} {g : GraphId} {p : Phase} : p ≠ .destroying →
      Quiet m r (r.reviseGraph g fun y => { y with phase := p })
  /-- What no node, no graph, no lookup and no pool shows. -/
  | unseen {r s : Registry} : s.node? = r.node? → s.graph? = r.graph? → s.pool = r.pool →
      s.lookup? = r.lookup? → Quiet m r s
  /-- References are taken or given back, but not the last one while there are callers. -/
  | recount {r : Registry} {g : GraphId} {k : Nat → Nat} :
      (∀ y, r.graph? g = some y → k y.refcount = 0 → ∀ c, c ∉ y.callers) →
      Quiet m r (r.reviseGraph g fun y => { y with refcount := k y.refcount })

/-- A change of a registry. -/
inductive Change (e : Setup) : Registry → Registry → Prop where
  | spread {r s : Registry} : Spread e r s → Change e r s
  | quiet {r s : Registry} : Quiet e.program r s → Change e r s
  | link {r : Registry} {c : NodeId} {g h : GraphId} {args : List ValueId} {y : Graph} :
      r.IsCall e.program c h args → r.graph? g = some y → ¬ r.Calls c g → r.MayCall e c h g →
      Change e r (r.link c g)

/-- Several changes that spread parameters. -/
abbrev Spreads (e : Setup) : Registry → Registry → Prop := Relation.ReflTransGen (Spread e)

/-- Several changes. -/
abbrev Changes (e : Setup) : Registry → Registry → Prop := Relation.ReflTransGen (Change e)

theorem Spreads.changes {e : Setup} {r s : Registry} (h : Spreads e r s) : Changes e r s :=
  h.lift id fun _ _ => .spread

/-! ## What changes do to the view -/

namespace Registry

variable {r : Registry} {c n : NodeId} {g h : GraphId} {key : NodeKey} {s : Slot}

@[simp] theorem node?_giveFormal (r : Registry) (g : GraphId) (key : NodeKey) (s : Slot)
    (n : NodeId) : (r.giveFormal g key s).node? n =
      if n = r.nextPair.input ∨ n = r.nextPair.output then some (.fresh key (some g) none)
      else r.node? n := by
  simp [giveFormal]

@[simp] theorem graph?_giveFormal (r : Registry) (g : GraphId) (key : NodeKey) (s : Slot)
    (h : GraphId) : (r.giveFormal g key s).graph? h =
      if h = g then (r.graph? h).map fun y => { y with formals := y.formals.put s r.nextPair }
      else r.graph? h := by
  simp [giveFormal]

@[simp] theorem graph?_giveActual (r : Registry) (c : NodeId) (g : GraphId) (key : NodeKey)
    (s : Slot) (h : GraphId) : (r.giveActual c g key s).graph? h = r.graph? h := by
  simp [giveActual]

theorem node?_giveActual {x : Node} (hc : r.node? c = some x) (g : GraphId) (key : NodeKey)
    (s : Slot) (n : NodeId) : (r.giveActual c g key s).node? n =
      if n = r.nextPair.input ∨ n = r.nextPair.output then some (.fresh key (some g) none)
      else if n = c then some { x with actuals? := some (x.actuals.put s r.nextPair) }
      else r.node? n := by
  rw [giveActual, node?_reviseNode, node?_pushPair]
  by_cases hn : n = c
  · -- the call is live, so it is none of the new nodes
    subst hn
    simp [ne_nextPair hc, hc]
  · simp [hn]

@[simp] theorem byFunction_giveFormal (r : Registry) (g : GraphId) (key : NodeKey) (s : Slot) :
    (r.giveFormal g key s).byFunction = r.byFunction :=
  byFunction_reviseGraph _ _ _

@[simp] theorem byFunction_giveActual (r : Registry) (c : NodeId) (g : GraphId) (key : NodeKey)
    (s : Slot) : (r.giveActual c g key s).byFunction = r.byFunction :=
  byFunction_reviseNode _ _ _

@[simp] theorem byFunction_giveNode (r : Registry) (g : GraphId) (key : NodeKey)
    (block? : Option BlockKey) : (r.giveNode g key block?).byFunction = r.byFunction :=
  byFunction_reviseGraph _ _ _

@[simp] theorem byFunction_link (r : Registry) (c : NodeId) (g : GraphId) :
    (r.link c g).byFunction = r.byFunction := by
  simp [link]

@[simp] theorem node?_giveNode (r : Registry) (g : GraphId) (key : NodeKey)
    (block? : Option BlockKey) (n : NodeId) : (r.giveNode g key block?).node? n =
      if n = r.nextNode then some (.fresh key (some g) block?) else r.node? n := by
  simp [giveNode]

@[simp] theorem graph?_giveNode (r : Registry) (g : GraphId) (key : NodeKey)
    (block? : Option BlockKey) (h : GraphId) : (r.giveNode g key block?).graph? h =
      if h = g then (r.graph? h).map fun y => { y with index := y.index.insert key r.nextNode }
      else r.graph? h := by
  simp [giveNode]

@[simp] theorem node?_giveShared (r : Registry) (v : ValueId) (n : NodeId) :
    (r.giveShared v).node? n =
      if n = r.nextNode then some (.fresh (.value v) none none) else r.node? n :=
  node?_pushNode r _ n

@[simp] theorem graph?_giveShared (r : Registry) (v : ValueId) (g : GraphId) :
    (r.giveShared v).graph? g = r.graph? g := rfl

@[simp] theorem node?_link (r : Registry) (c : NodeId) (g : GraphId) (n : NodeId) :
    (r.link c g).node? n =
      if n = c then (r.node? n).map fun x => { x with callees := x.callees.insert g }
      else r.node? n := by
  simp [link]

@[simp] theorem graph?_link (r : Registry) (c : NodeId) (g h : GraphId) :
    (r.link c g).graph? h = if h = g then (r.graph? h).map fun y =>
        { y with callers := y.callers.insert c, refcount := y.refcount + 1 }
      else r.graph? h := by
  simp [link]

end Registry

/-! ## Growth -/

/-- Nothing that `x` has is missing in `x'`. -/
structure Node.Grows (x x' : Node) : Prop where
  key : x'.key = x.key
  graph? : x'.graph? = x.graph?
  block? : x'.block? = x.block?
  controls : ∀ b ∈ x.controls, b ∈ x'.controls
  feeds : ∀ b ∈ x.feeds, b ∈ x'.feeds
  callees : ∀ g ∈ x.callees, g ∈ x'.callees
  at? : ∀ s q, x.actuals.at? s = some q → x'.actuals.at? s = some q
  find? : ∀ v q, x.actuals.find? v = some q → x'.actuals.find? v = some q

/-- Nothing that `y` has is missing in `y'`. -/
structure Graph.Grows (y y' : Graph) : Prop where
  function : y'.function = y.function
  index : ∀ key n, y.index.get? key = some n → y'.index.get? key = some n
  at? : ∀ s q, y.formals.at? s = some q → y'.formals.at? s = some q
  find? : ∀ v q, y.formals.find? v = some q → y'.formals.find? v = some q
  callers : ∀ c ∈ y.callers, c ∈ y'.callers
  callNodes : ∀ c ∈ y.callNodes, c ∈ y'.callNodes

theorem Node.Grows.refl (x : Node) : x.Grows x :=
  ⟨rfl, rfl, rfl, fun _ h => h, fun _ h => h, fun _ h => h, fun _ _ h => h, fun _ _ h => h⟩

theorem Node.Grows.trans {x y z : Node} (h : x.Grows y) (k : y.Grows z) : x.Grows z where
  key := k.key.trans h.key
  graph? := k.graph?.trans h.graph?
  block? := k.block?.trans h.block?
  controls b hb := k.controls b (h.controls b hb)
  feeds b hb := k.feeds b (h.feeds b hb)
  callees g hg := k.callees g (h.callees g hg)
  at? s q hq := k.at? s q (h.at? s q hq)
  find? v q hq := k.find? v q (h.find? v q hq)

theorem Graph.Grows.refl (y : Graph) : y.Grows y :=
  ⟨rfl, fun _ _ h => h, fun _ _ h => h, fun _ _ h => h, fun _ h => h, fun _ h => h⟩

theorem Graph.Grows.trans {x y z : Graph} (h : x.Grows y) (k : y.Grows z) : x.Grows z where
  function := k.function.trans h.function
  index key n hn := k.index key n (h.index key n hn)
  at? s q hq := k.at? s q (h.at? s q hq)
  find? v q hq := k.find? v q (h.find? v q hq)
  callers c hc := k.callers c (h.callers c hc)
  callNodes c hc := k.callNodes c (h.callNodes c hc)

namespace Registry

/-- What is live in `r` is live in `r'` and nothing of it is missing there. -/
structure Grows (r r' : Registry) : Prop where
  node : ∀ n x, r.node? n = some x → ∃ x', r'.node? n = some x' ∧ x.Grows x'
  graph : ∀ g y, r.graph? g = some y → ∃ y', r'.graph? g = some y' ∧ y.Grows y'
  /-- A function that is entered stays so. -/
  lookup? : ∀ f g, r.lookup? f = some g → r'.lookup? f = some g

theorem Grows.refl (r : Registry) : r.Grows r :=
  ⟨fun _ x h => ⟨x, h, .refl x⟩, fun _ y h => ⟨y, h, .refl y⟩, fun _ _ h => h⟩

theorem Grows.trans {r s t : Registry} (h : r.Grows s) (k : s.Grows t) : r.Grows t := by
  refine ⟨fun n x hx => ?_, fun g y hy => ?_, fun f g hf => k.lookup? f g (h.lookup? f g hf)⟩
  · obtain ⟨x', hx', h1⟩ := h.node n x hx
    obtain ⟨x'', hx'', h2⟩ := k.node n x' hx'
    exact ⟨x'', hx'', h1.trans h2⟩
  · obtain ⟨y', hy', h1⟩ := h.graph g y hy
    obtain ⟨y'', hy'', h2⟩ := k.graph g y' hy'
    exact ⟨y'', hy'', h1.trans h2⟩

/-- What is written to nodes and graphs alone leaves all entries as they are. -/
theorem lookup?_of_some {r s : Registry} (h : s.byFunction = r.byFunction) (f : FunctionId)
    (g : GraphId) (hf : r.lookup? f = some g) : s.lookup? f = some g :=
  (congrFun (lookup?_of_byFunction h) f).trans hf

end Registry

/-- A revised graph that only changes in what is not looked at has grown. -/
theorem Graph.Grows.of_eq {y z : Graph} (hf : z.function = y.function) (hi : z.index = y.index)
    (hp : z.formals = y.formals) (hc : z.callers = y.callers)
    (hn : ∀ c ∈ y.callNodes, c ∈ z.callNodes) : y.Grows z :=
  ⟨hf, by simp [hi], by simp [hp], by simp [hp], by simp [hc], hn⟩

theorem Graph.SameCore.grows {y z : Graph} (h : y.SameCore z) : y.Grows z :=
  .of_eq h.function h.index h.formals h.callers h.callNodes

/-- If only one graph was revised, and grew, the registry grew. -/
theorem Registry.Grows.reviseGraph {r : Registry} {g : GraphId} {f : Graph → Graph}
    (h : ∀ y, r.graph? g = some y → y.Grows (f y)) : r.Grows (r.reviseGraph g f) := by
  refine ⟨fun n x hx => ⟨x, by simpa using hx, .refl x⟩, fun h' y hy => ?_,
    lookup?_of_some (byFunction_reviseGraph r g f)⟩
  by_cases hg : h' = g
  · subst hg
    exact ⟨f y, by simp [hy], h y hy⟩
  · exact ⟨y, by simpa [hg] using hy, .refl y⟩

namespace Registry

/-- A new formal parameter in a vacant slot hides none that was there. -/
theorem Grows.giveFormal {r : Registry} {g : GraphId} {y : Graph} {s : Slot}
    (hy : r.graph? g = some y) (hv : y.formals.Vacant s) (key : NodeKey) :
    r.Grows (r.giveFormal g key s) := by
  refine ⟨fun n x hx => ⟨x, by simpa [ne_nextPair hx] using hx, .refl x⟩, fun h z hz => ?_,
    lookup?_of_some (byFunction_giveFormal r g key s)⟩
  by_cases hh : h = g
  · subst hh
    rw [hy] at hz
    cases hz
    rw [graph?_giveFormal, if_pos rfl, hy]
    exact ⟨_, rfl, rfl, fun _ _ h => h, fun _ _ => Parameters.at?_put_of_some hv,
      fun _ _ => Parameters.find?_put_of_some hv, fun _ h => h, fun _ h => h⟩
  · exact ⟨z, by simpa [hh] using hz, .refl z⟩

/-- Nor does a new actual parameter. -/
theorem Grows.giveActual {r : Registry} {c : NodeId} {x : Node} {s : Slot}
    (hx : r.node? c = some x) (hv : x.actuals.Vacant s) (g : GraphId) (key : NodeKey) :
    r.Grows (r.giveActual c g key s) := by
  refine ⟨fun n z hz => ?_, fun h y hy => ⟨y, by simpa using hy, .refl y⟩,
    lookup?_of_some (byFunction_giveActual r c g key s)⟩
  rw [node?_giveActual hx, if_neg (ne_nextPair hz)]
  by_cases hn : n = c
  · subst hn
    rw [hx] at hz
    cases hz
    rw [if_pos rfl]
    exact ⟨_, rfl, rfl, rfl, rfl, fun _ h => h, fun _ h => h, fun _ h => h,
      fun _ _ => Parameters.at?_put_of_some hv, fun _ _ => Parameters.find?_put_of_some hv⟩
  · rw [if_neg hn]
    exact ⟨z, hz, .refl z⟩

/-- Edges are only added. -/
theorem Grows.control (r : Registry) (a b : NodeId) : r.Grows (r.control a b) := by
  refine ⟨fun n z hz => ?_, fun h y hy => ⟨y, by simpa using hy, .refl y⟩,
    lookup?_of_some (byFunction_control r a b)⟩
  rw [node?_control, hz]
  refine ⟨_, rfl, rfl, rfl, rfl, fun c hc => ?_,
    fun _ h => h, fun _ h => h, fun _ _ h => h, fun _ _ h => h⟩
  split
  · exact OrderedSet.mem_insert.2 (Or.inl hc)
  · exact hc

theorem Grows.feed (r : Registry) (a b : NodeId) : r.Grows (r.feed a b) := by
  refine ⟨fun n z hz => ?_, fun h y hy => ⟨y, by simpa using hy, .refl y⟩,
    lookup?_of_some (byFunction_feed r a b)⟩
  rw [node?_feed, hz]
  refine ⟨_, rfl, rfl, rfl, rfl, fun _ h => h, fun c hc => ?_,
    fun _ h => h, fun _ _ h => h, fun _ _ h => h⟩
  split
  · exact OrderedSet.mem_insert.2 (Or.inl hc)
  · exact hc

/-- A new node under a key that was not in use. -/
theorem Grows.giveNode {r : Registry} {g : GraphId} {y : Graph} {key : NodeKey}
    (hy : r.graph? g = some y) (hk : y.index.get? key = none) (block? : Option BlockKey) :
    r.Grows (r.giveNode g key block?) := by
  refine ⟨fun n x hx => ⟨x, by simpa [ne_nextNode hx] using hx, .refl x⟩, fun h z hz => ?_,
    lookup?_of_some (byFunction_giveNode r g key block?)⟩
  by_cases hh : h = g
  · subst hh
    rw [hy] at hz
    cases hz
    rw [graph?_giveNode, if_pos rfl, hy]
    refine ⟨_, rfl, rfl, fun j n hn => ?_, fun _ _ h => h, fun _ _ h => h, fun _ h => h,
      fun _ h => h⟩
    -- the key was not in use, so it is not the one of an indexed node
    show (y.index.insert key r.nextNode).get? j = some n
    rw [OrderedMap.get?_insert, if_neg]
    · exact hn
    · intro hs
      subst hs
      rw [hk] at hn
      cases hn
  · exact ⟨z, by simpa [hh] using hz, .refl z⟩

/-- A link is one more callee of the call and one more caller of the graph. -/
theorem Grows.link (r : Registry) (c : NodeId) (g : GraphId) : r.Grows (r.link c g) := by
  refine ⟨fun n x hx => ?_, fun h y hy => ?_, lookup?_of_some (byFunction_link r c g)⟩
  · by_cases hn : n = c
    · subst hn
      rw [node?_link, if_pos rfl, hx]
      exact ⟨_, rfl, rfl, rfl, rfl, fun _ h => h, fun _ h => h,
        fun k hk => OrderedSet.mem_insert.2 (Or.inl hk), fun _ _ h => h, fun _ _ h => h⟩
    · exact ⟨x, by simpa [hn] using hx, .refl x⟩
  · by_cases hh : h = g
    · subst hh
      rw [graph?_link, if_pos rfl, hy]
      exact ⟨_, rfl, rfl, fun _ _ h => h, fun _ _ h => h, fun _ _ h => h,
        fun k hk => OrderedSet.mem_insert.2 (Or.inl hk), fun _ h => h⟩
    · exact ⟨y, by simpa [hh] using hy, .refl y⟩

/-- A graph for a function that has none takes the place of no other. -/
theorem Grows.pushGraph {r : Registry} {y : Graph} (hf : r.lookup? y.function = none) :
    r.Grows (r.pushGraph y) := by
  refine ⟨fun n x hx => ⟨x, hx, .refl x⟩,
    fun h z hz => ⟨z, by simpa [ne_nextGraph hz] using hz, .refl z⟩, fun k g hg => ?_⟩
  rw [lookup?_pushGraph, if_neg]
  · exact hg
  · rintro rfl
    rw [hf] at hg
    cases hg

end Registry

theorem Spread.grows {e : Setup} {r s : Registry} (h : Spread e r s) : r.Grows s := by
  cases h with
  | formal hy hv _ _ => exact .giveFormal hy hv _
  | actual _ hx hv _ => exact .giveActual hx hv _ _
  | control _ _ => exact .control _ _ _
  | feed _ _ _ => exact .feed _ _ _

/-- Parameters make no graph. -/
theorem Spread.nextGraph_eq {e : Setup} {r s : Registry} (h : Spread e r s) :
    s.nextGraph = r.nextGraph := by
  cases h with
  | formal _ _ _ _ => exact Registry.nextGraph_reviseGraph _ _ _
  | actual _ _ _ _ => exact Registry.nextGraph_reviseNode _ _ _
  | control _ _ => simp [Registry.control]
  | feed _ _ _ => simp [Registry.feed]

/-- Parameters gather no call. -/
theorem Spread.gathered_eq {e : Setup} {r s : Registry} (h : Spread e r s) :
    s.gathered = r.gathered := by
  cases h with
  | formal _ _ _ _ => exact Registry.gathered_reviseGraph _ _ _
  | actual _ _ _ _ => exact Registry.gathered_reviseNode _ _ _
  | control _ _ => simp [Registry.control]
  | feed _ _ _ => simp [Registry.feed]

theorem Quiet.grows {m : Module} {r s : Registry} (h : Quiet m r s) : r.Grows s := by
  cases h with
  | shared _ =>
    exact ⟨fun n x hx => ⟨x, by simpa [Registry.ne_nextNode hx] using hx, .refl x⟩,
      fun h y hy => ⟨y, hy, .refl y⟩, fun _ _ h => h⟩
  | graph hf => exact .pushGraph hf
  | node hy hk => exact .giveNode hy hk _
  | dress hf _ =>
    -- what is left is about one graph, and changes nothing that growth looks at
    exact .reviseGraph fun y _ => (hf y).grows
  | phase _ => exact .reviseGraph fun y _ => .of_eq rfl rfl rfl rfl fun _ h => h
  | unseen hn hg _ hf =>
    exact ⟨fun n x hx => ⟨x, by rw [hn, hx], .refl x⟩, fun h y hy => ⟨y, by rw [hg, hy], .refl y⟩,
      fun f g hg => by rw [hf, hg]⟩
  | recount _ => exact .reviseGraph fun y _ => .of_eq rfl rfl rfl rfl fun _ h => h

theorem Change.grows {e : Setup} {r s : Registry} (h : Change e r s) : r.Grows s := by
  cases h with
  | spread h => exact h.grows
  | quiet h => exact h.grows
  | link _ _ _ _ => exact .link _ _ _

theorem Registry.MayLink.grows {e : Setup} {r s : Registry} {g h : GraphId} (hg : r.Grows s)
    (hm : r.MayLink e g h) : s.MayLink e g h := by
  obtain ⟨y, z, hy, hz, hruns⟩ := hm
  obtain ⟨y', hy', hyy⟩ := hg.graph g y hy
  obtain ⟨z', hz', hzz⟩ := hg.graph h z hz
  exact ⟨y', z', hy', hz', by rwa [hyy.function, hzz.function]⟩

theorem Registry.MayCall.grows {e : Setup} {r s : Registry} {c : NodeId} {g h : GraphId}
    (hg : r.Grows s) (hm : r.MayCall e c g h) : s.MayCall e c g h := by
  obtain ⟨v, x, y, z, hx, hk, hy, hz, hv, hruns⟩ := hm
  obtain ⟨x', hx', hxx⟩ := hg.node c x hx
  obtain ⟨y', hy', hyy⟩ := hg.graph g y hy
  obtain ⟨z', hz', hzz⟩ := hg.graph h z hz
  exact ⟨v, x', y', z', hx', hxx.key.trans hk, hy', hz', by rwa [hyy.function],
    by rwa [hzz.function]⟩

theorem Changes.grows {e : Setup} {r s : Registry} (h : Changes e r s) : r.Grows s := by
  induction h with
  | refl => exact .refl r
  | tail _ hc ih => exact ih.trans hc.grows

end Sdg
