import Sdg.Build.Bindings
import Sdg.Proofs.Registry.Place

/-!
# Bindings

Which value a call passes to which formal parameter of a graph that it is linked to, and which data
edges follow from the links of a registry. `Registry.Flow` is what the data edges ought to be.
-/

namespace Sdg

/-- A call with these arguments passes `v` to the formal parameter `q` of a function with these
declared parameters and formals. -/
inductive Binding (declared args : List ValueId) (formals : Parameters) :
    ValueId → ParameterPair → Prop where
  /-- Declared parameters take arguments by position. -/
  | declared {i : Nat} {v arg : ValueId} {q : ParameterPair} : declared[i]? = some v →
      args[i]? = some arg → formals.find? v = some q → Binding declared args formals arg q
  /-- A heap object is passed as itself. -/
  | heap {v : ValueId} {q : ParameterPair} : v ∉ declared → formals.own.get? v = some q →
      Binding declared args formals v q
  /-- A global is passed as itself. -/
  | global {v : ValueId} {q : ParameterPair} : formals.globals.get? v = some q →
      Binding declared args formals v q
  /-- Arguments that are left over go to the variadic parameter. -/
  | variadic {i : Nat} {arg : ValueId} {q : ParameterPair} : declared.length ≤ i →
      args[i]? = some arg → formals.variadic? = some q → Binding declared args formals arg q

/-- The list that is worked through has exactly the bindings. -/
theorem mem_bindingsOf {declared args : List ValueId} {formals : Parameters} {v : ValueId}
    {q : ParameterPair} :
    (∃ b, (v, q, b) ∈ Work.bindingsOf declared args formals) ↔
      Binding declared args formals v q := by
  unfold Work.bindingsOf
  simp only [List.mem_append, List.mem_filterMap, List.mem_map, List.mem_filter, List.mem_flatMap,
    Option.map_eq_some_iff, Prod.mk.injEq, Prod.exists, Option.mem_toList]
  constructor
  · intro hp
    obtain ⟨b, ((⟨w, arg, hz, q', hf, rfl, rfl, rfl⟩ | ⟨w, q', ⟨hm, hd⟩, rfl, rfl, rfl⟩) | ⟨w,
      q', hm, rfl, rfl, rfl⟩) | ⟨q', hv, arg, ha, rfl, rfl, rfl⟩⟩ := hp
    · -- declared parameters stand beside the arguments at their positions
      obtain ⟨i, hi⟩ := List.mem_iff_getElem?.1 hz
      rw [List.getElem?_zip_eq_some] at hi
      exact .declared hi.1 hi.2 hf
    · exact .heap (by simpa using hd) (OrderedMap.mem_entries.1 hm)
    · exact .global (OrderedMap.mem_entries.1 hm)
    · -- what is left over stands behind the declared parameters
      obtain ⟨i, hi⟩ := List.mem_iff_getElem?.1 ha
      rw [List.getElem?_drop] at hi
      exact .variadic (Nat.le_add_right _ _) hi hv
  · intro h
    cases h with
    | declared hd ha hf =>
      -- the four lists are appended, and each way to be bound is in one of them
      refine ⟨false, Or.inl (Or.inl (Or.inl ⟨_, _, ?_, q, hf, rfl, rfl, rfl⟩))⟩
      exact List.mem_iff_getElem?.2 ⟨_, List.getElem?_zip_eq_some.2 ⟨hd, ha⟩⟩
    | heap hd ho =>
      exact ⟨false, Or.inl (Or.inl (Or.inr ⟨v, q, ⟨OrderedMap.mem_entries.2 ho, by simpa using hd⟩,
        rfl, rfl, rfl⟩))⟩
    | global hg =>
      exact ⟨true, Or.inl (Or.inr ⟨v, q, OrderedMap.mem_entries.2 hg, rfl, rfl, rfl⟩)⟩
    | @variadic i _ _ hi ha hv =>
      refine ⟨false, Or.inr ⟨q, hv, v, List.mem_iff_getElem?.2 ⟨i - declared.length, ?_⟩,
        rfl, rfl, rfl⟩⟩
      rw [List.getElem?_drop, Nat.add_sub_cancel' hi]
      exact ha

/-! ## Relations between nodes and graphs -/

namespace Registry

/-- `a` controls `b`, as kept at `a`. -/
def Controls (r : Registry) (a b : NodeId) : Prop := ∃ x, r.node? a = some x ∧ b ∈ x.controls

/-- `a` controls `b`, as kept at `b`. -/
def ControlledBy (r : Registry) (b a : NodeId) : Prop :=
  ∃ x, r.node? b = some x ∧ a ∈ x.controlledBy

/-- `b` depends on the data of `a`, as kept at `a`. -/
def Feeds (r : Registry) (a b : NodeId) : Prop := ∃ x, r.node? a = some x ∧ b ∈ x.feeds

/-- `b` depends on the data of `a`, as kept at `b`. -/
def FedBy (r : Registry) (b a : NodeId) : Prop := ∃ x, r.node? b = some x ∧ a ∈ x.fedBy

/-- The call `c` is linked to the graph `g`, as kept at `c`. -/
def Calls (r : Registry) (c : NodeId) (g : GraphId) : Prop :=
  ∃ x, r.node? c = some x ∧ g ∈ x.callees

/-- The call `c` is linked to the graph `g`, as kept at `g`. -/
def CalledBy (r : Registry) (g : GraphId) (c : NodeId) : Prop :=
  ∃ y, r.graph? g = some y ∧ c ∈ y.callers

/-- The node `n` belongs to the graph `g`. -/
def OwnedBy (r : Registry) (n : NodeId) (g : GraphId) : Prop :=
  ∃ x, r.node? n = some x ∧ x.graph? = some g

/-- A call of the graph `g` is linked to the graph `h`. -/
def Links (r : Registry) (g h : GraphId) : Prop := ∃ c, r.OwnedBy c g ∧ r.Calls c h

/-- The pair under which the call `c` passes `v`. -/
def actual? (r : Registry) (c : NodeId) (v : ValueId) : Option ParameterPair :=
  (r.node? c).bind (·.actuals.find? v)

/-- The call `c` passes `v` to the formal parameter `q` of the graph `g` that it is linked to. -/
def Binds (m : Module) (r : Registry) (c : NodeId) (g : GraphId) (v : ValueId)
    (q : ParameterPair) : Prop :=
  ∃ x callee args y f, r.node? c = some x ∧ g ∈ x.callees ∧
    m.operation? x.key = .ok (some (.call callee args)) ∧ r.graph? g = some y ∧
    m.function y.function = .ok f ∧ Binding f.params args y.formals v q

/-- Why `b` depends on the data of `a`. -/
inductive Flow (m : Module) (r : Registry) (a b : NodeId) : Prop where
  /-- What comes in variadically also goes out. -/
  | variadic {g : GraphId} {y : Graph} {q : ParameterPair} : r.graph? g = some y →
      y.formals.variadic? = some q → a = q.input → b = q.output → Flow m r a b
  /-- A call hands a value to a parameter. -/
  | passed {c : NodeId} {g : GraphId} {v : ValueId} {formal actual : ParameterPair} :
      Binds m r c g v formal → r.actual? c v = some actual → a = actual.input →
      b = formal.input → Flow m r a b
  /-- A call takes a value back from a parameter. -/
  | returned {c : NodeId} {g : GraphId} {v : ValueId} {formal actual : ParameterPair} :
      Binds m r c g v formal → r.actual? c v = some actual → a = formal.output →
      b = actual.output → Flow m r a b

end Registry

end Sdg
