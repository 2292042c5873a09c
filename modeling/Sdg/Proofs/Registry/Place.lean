import Sdg.Proofs.Registry.View

/-!
# Places

Every node has a place: the pool, the index of a graph, or one end of a formal or actual parameter.
`Registry.occupant` tells which node is at a place. A set of parameters is seen through its slots,
since a pair can be an own one, a global one or the variadic one.
-/

namespace Sdg

/-- Where a set of parameters keeps a pair. -/
inductive Slot where
  | own (v : ValueId)
  | global (v : ValueId)
  | variadic
  deriving DecidableEq

/-- One end of a pair. -/
def ParameterPair.side (q : ParameterPair) (isOutput : Bool) : NodeId :=
  if isOutput then q.output else q.input

namespace Parameters

variable {p : Parameters} {s t : Slot} {q q' : ParameterPair} {v : ValueId}

/-- The pair in a slot. -/
def at? (p : Parameters) : Slot → Option ParameterPair
  | .own v => p.own.get? v
  | .global v => p.globals.get? v
  | .variadic => p.variadic?

/-- Puts a pair into a slot. -/
def put (p : Parameters) (s : Slot) (q : ParameterPair) : Parameters :=
  match s with
  | .own v => p.addOwn v q
  | .global v => p.addGlobal v q
  | .variadic => { p with variadic? := some q }

/-- Whether a slot takes a pair: no value is a parameter twice. -/
def Vacant (p : Parameters) : Slot → Prop
  | .own v | .global v => p.contains v = false
  | .variadic => p.variadic? = none

/-- The variadic pair is put into its slot, which has to be vacant. -/
theorem setVariadic?_eq_some_iff {p' : Parameters} :
    p.setVariadic? q = some p' ↔ p.Vacant .variadic ∧ p' = p.put .variadic q := by
  unfold setVariadic? Vacant put
  cases p.variadic? <;> simp [eq_comm]

theorem contains_eq_true_iff : p.contains v = true ↔ ∃ q, p.find? v = some q := by
  unfold contains find?
  rw [Bool.or_eq_true, OrderedMap.contains_eq_true_iff, OrderedMap.contains_eq_true_iff]
  cases p.own.get? v <;> simp

theorem contains_eq_false_iff :
    p.contains v = false ↔ p.own.get? v = none ∧ p.globals.get? v = none := by
  unfold contains
  rw [Bool.or_eq_false_iff, OrderedMap.contains_eq_false_iff, OrderedMap.contains_eq_false_iff]

theorem contains_eq_true_iff_at? :
    p.contains v = true ↔ ∃ q, p.at? (.own v) = some q ∨ p.at? (.global v) = some q := by
  unfold contains at?
  rw [Bool.or_eq_true, OrderedMap.contains_eq_true_iff, OrderedMap.contains_eq_true_iff]
  exact exists_or.symm

theorem at?_put (h : p.Vacant s) : (p.put s q).at? t = if t = s then some q else p.at? t := by
  cases s with
  | own v =>
    have hv : p.contains v = false := h
    -- the slot is vacant, so the pair is entered
    rw [put, addOwn, if_neg (by simp [hv])]
    cases t <;> simp [at?, OrderedMap.get?_insert]
  | global v =>
    have hv : p.contains v = false := h
    rw [put, addGlobal, if_neg (by simp [hv])]
    cases t <;> simp [at?, OrderedMap.get?_insert]
  | variadic => cases t <;> simp [put, at?]

theorem Vacant.at?_eq_none (h : p.Vacant s) : p.at? s = none := by
  cases s with
  | own v => exact (contains_eq_false_iff.1 h).1
  | global v => exact (contains_eq_false_iff.1 h).2
  | variadic => exact h

/-- A pair that is there stays where it is. -/
theorem at?_put_of_some (h : p.Vacant s) (ht : p.at? t = some q') :
    (p.put s q).at? t = some q' := by
  rw [at?_put h, if_neg]
  · exact ht
  · -- a slot with a pair in it is not the vacant one
    intro hs
    subst hs
    rw [h.at?_eq_none] at ht
    cases ht

theorem find?_eq : p.find? v = (p.at? (.own v)).or (p.at? (.global v)) := rfl

/-- A value keeps its pair. -/
theorem find?_put_of_some (h : p.Vacant s) (hv : p.find? v = some q') :
    (p.put s q).find? v = some q' := by
  rw [find?_eq, at?_put h, at?_put h]
  -- a value that has a pair has no vacant slot
  have hne : s ≠ .own v ∧ s ≠ .global v := by
    have hc := contains_eq_true_iff.2 ⟨q', hv⟩
    constructor <;> rintro rfl <;> exact absurd hc (by rw [show p.contains v = false from h]; simp)
  rw [if_neg hne.1.symm, if_neg hne.2.symm]
  exact hv

theorem find?_eq_none_iff : p.find? v = none ↔ p.contains v = false :=
  Option.or_eq_none_iff.trans contains_eq_false_iff.symm

/-- A slot is for one value. -/
theorem key_eq_of_slot {w : ValueId} (hs : s = .own v ∨ s = .global v)
    (hw : s = .own w ∨ s = .global w) : NodeKey.value v = .value w := by
  rcases hs with rfl | rfl <;> rcases hw with hw | hw <;> cases hw <;> rfl

/-- Both slots for a value take a pair as long as it has none. -/
theorem vacant_iff (hs : s = .own v ∨ s = .global v) : p.Vacant s ↔ p.contains v = false := by
  rcases hs with rfl | rfl <;> exact Iff.rfl

/-- A value that had no pair has the one that is put into a slot for it. -/
theorem find?_put (h : p.Vacant s) (hs : s = .own v ∨ s = .global v) :
    (p.put s q).find? v = some q := by
  rcases hs with rfl | rfl
  · simp [find?_eq, at?_put h]
  · -- its own slot is vacant as well
    have hn : p.at? (.own v) = none := Vacant.at?_eq_none (s := .own v) h
    simp [find?_eq, at?_put h, hn]

/-- A pair for a value is not the variadic one. -/
theorem variadic?_put (h : p.Vacant s) (hs : s = .own v ∨ s = .global v) :
    (p.put s q).variadic? = p.variadic? := by
  have hne : Slot.variadic ≠ s := by rcases hs with rfl | rfl <;> nofun
  have hput := at?_put (t := .variadic) (q := q) h
  rwa [if_neg hne] at hput

theorem mem_pairs : q ∈ p.pairs ↔ ∃ s, p.at? s = some q := by
  unfold pairs
  rw [List.mem_append, List.mem_append, OrderedMap.mem_values, OrderedMap.mem_values]
  constructor
  · intro hp
    rcases hp with (⟨v, h⟩ | ⟨v, h⟩) | h
    · exact ⟨.own v, h⟩
    · exact ⟨.global v, h⟩
    · exact ⟨.variadic, Option.mem_toList.1 h⟩
  · intro hp
    obtain ⟨s, h⟩ := hp
    cases s with
    | own v => exact Or.inl (Or.inl ⟨v, h⟩)
    | global v => exact Or.inl (Or.inr ⟨v, h⟩)
    | variadic => exact Or.inr (Option.mem_toList.2 h)

/-- The nodes of a set of parameters are the ends of the pairs in its slots. -/
theorem mem_nodes {n : NodeId} : n ∈ p.nodes ↔ ∃ s b, (p.at? s).map (·.side b) = some n := by
  unfold nodes
  rw [List.mem_flatMap]
  constructor
  · intro hp
    obtain ⟨q, hq, hn⟩ := hp
    obtain ⟨s, hs⟩ := mem_pairs.1 hq
    rcases List.mem_cons.1 hn with rfl | hn
    · exact ⟨s, false, by rw [hs]; rfl⟩
    · exact ⟨s, true, by rw [hs, List.mem_singleton.1 hn]; rfl⟩
  · intro hp
    obtain ⟨s, b, h⟩ := hp
    obtain ⟨q, hq, rfl⟩ := Option.map_eq_some_iff.1 h
    refine ⟨q, mem_pairs.2 ⟨s, hq⟩, ?_⟩
    cases b <;> simp [ParameterPair.side]

@[simp] theorem at?_empty (s : Slot) : (empty : Parameters).at? s = none := by
  cases s <;> rfl

end Parameters

/-- The actual parameters of a node; none are there before the first. -/
def Node.actuals (x : Node) : Parameters := x.actuals?.getD .empty

/-- Where a node may be. -/
inductive Place where
  /-- The shared node of a global variable. -/
  | pool (v : ValueId)
  | index (g : GraphId) (key : NodeKey)
  /-- An end of a formal parameter of a graph. -/
  | formal (g : GraphId) (s : Slot) (isOutput : Bool)
  /-- An end of an actual parameter of a call. -/
  | actual (c : NodeId) (s : Slot) (isOutput : Bool)

/-- The node at a place. -/
def Registry.occupant (r : Registry) : Place → Option NodeId
  | .pool v => r.pool.get? v
  | .index g key => (r.graph? g).bind (·.index.get? key)
  | .formal g s b => (r.graph? g).bind fun y => (y.formals.at? s).map (·.side b)
  | .actual c s b => (r.node? c).bind fun x => (x.actuals.at? s).map (·.side b)

/-- Whether a node looks as its place asks: under the key of that place and of the same graph. -/
def Registry.Fits (r : Registry) (x : Node) : Place → Prop
  | .pool v => x.key = .value v ∧ x.graph? = none
  | .index g key => x.key = key ∧ x.graph? = some g
  | .formal g s _ => x.graph? = some g ∧ ∀ v, s = .own v ∨ s = .global v → x.key = .value v
  | .actual c s _ => (∃ z, r.node? c = some z ∧ z.graph? = x.graph?) ∧
      ∀ v, s = .own v ∨ s = .global v → x.key = .value v

end Sdg
