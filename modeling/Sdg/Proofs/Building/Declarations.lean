import Sdg.Proofs.Building.Roots
import Sdg.Proofs.Closed
import Sdg.Proofs.Maintained
import Sdg.Proofs.Registry.Globals

/-!
# Roots without a graph

A root is refused if no function has the name, and then nothing was done; or if the function has no
body, and by then its graph was registered. That graph is torn down again, and what stays is the
name that was spent on it and the shared nodes, which were made before.

Main results:

* `Module.functionNamed?_eq_some_iff` — a name is that of the first function that has it;
* `Work.constructRoot_declaration` — what a root without a body leaves of the registry.
-/

namespace Sdg

open Registry

/-! ## Names of functions -/

/-- The function `f`, whose entry is `x`, is the first one with the name. -/
structure Module.FirstNamed (m : Module) (name : String) (f : FunctionId) (x : Function) :
    Prop where
  function : m.function f = .ok x
  named : x.name = name
  first : ∀ i z, m.function i = .ok z → i.index < f.index → z.name ≠ name

namespace Module

variable {m : Module} {name : String} {f : FunctionId}

theorem function_eq_ok_iff {x : Function} :
    m.function f = .ok x ↔ ∃ h : f.index < m.functions.size, m.functions[f.index] = x := by
  constructor
  · intro hx
    exact Array.getElem?_eq_some_iff.1 (getElem?_of_function hx)
  · rintro ⟨h, rfl⟩
    rw [function, Array.getElem?_eq_getElem h]

/-- A name is that of the first function that has it. -/
theorem functionNamed?_eq_some_iff :
    m.functionNamed? name = some f ↔ ∃ x, m.FirstNamed name f x := by
  rw [functionNamed?, Option.bind_eq_some_iff]
  constructor
  · rintro ⟨i, hi, hf⟩
    obtain rfl := EntryId.index_of_ofNat? hf
    obtain ⟨hlt, hname, hfirst⟩ := Array.findIdx?_eq_some_iff_getElem.1 hi
    refine ⟨_, function_eq_ok_iff.2 ⟨hlt, rfl⟩, of_decide_eq_true hname, fun i z hz hlt' hn => ?_⟩
    obtain ⟨_, rfl⟩ := function_eq_ok_iff.1 hz
    exact hfirst i.index hlt' (decide_eq_true hn)
  · rintro ⟨x, hx, hname, hfirst⟩
    obtain ⟨hlt, rfl⟩ := function_eq_ok_iff.1 hx
    refine ⟨f.index, Array.findIdx?_eq_some_iff_getElem.2 ⟨hlt, decide_eq_true hname, ?_⟩,
      EntryId.ofNat?_index f⟩
    intro j hj hn
    -- what comes before an id has an id too
    obtain ⟨i, rfl⟩ : ∃ i : FunctionId, i.index = j :=
      EntryId.exists_index (Nat.lt_trans hj f.word.toNat_lt_size)
    exact hfirst i _ (function_eq_ok_iff.2 ⟨Nat.lt_trans hj hlt, rfl⟩) hj (of_decide_eq_true hn)

theorem FirstNamed.inj {i : FunctionId} {x z : Function} (hx : m.FirstNamed name f x)
    (hz : m.FirstNamed name i z) : z = x := by
  have hf := functionNamed?_eq_some_iff.2 ⟨x, hx⟩
  rw [functionNamed?_eq_some_iff.2 ⟨z, hz⟩] at hf
  cases hf
  have hfun := hx.function
  rw [hz.function] at hfun
  exact Except.ok.inj hfun

/-- There is no function of a name exactly if no function has it. -/
theorem functionNamed?_eq_none_iff :
    m.functionNamed? name = none ↔ ∀ f x, m.function f = .ok x → x.name ≠ name := by
  constructor
  · intro h f x hx hname
    obtain ⟨hlt, rfl⟩ := function_eq_ok_iff.1 hx
    cases hi : m.functions.findIdx? (·.name = name) with
    | none =>
      have hne := Array.findIdx?_eq_none_iff.1 hi _ (Array.getElem_mem hlt)
      exact of_decide_eq_false hne hname
    | some i =>
      obtain ⟨_, _, hfirst⟩ := Array.findIdx?_eq_some_iff_getElem.1 hi
      have hle : i ≤ f.index := Nat.le_of_not_lt fun hf => hfirst f.index hf (decide_eq_true hname)
      obtain ⟨j, rfl⟩ : ∃ j : FunctionId, j.index = i :=
        EntryId.exists_index (Nat.lt_of_le_of_lt hle f.word.toNat_lt_size)
      rw [functionNamed?, hi, Option.bind_some, EntryId.ofNat?_index] at h
      cases h
  · intro h
    refine Option.eq_none_iff_forall_ne_some.2 fun f hf => ?_
    obtain ⟨x, hx⟩ := functionNamed?_eq_some_iff.1 hf
    exact h f x hx.function hx.named

end Module

/-! ## What stays of a refused root -/

namespace Registry

/-- The registry `s` is `r` with shared nodes for all of the globals. -/
structure Fills (vs : List ValueId) (r s : Registry) : Prop where
  kept : ∀ n x, r.node? n = some x → s.node? n = some x
  /-- A node that is new is the shared node of a global that had none. -/
  added : ∀ n x, r.node? n = none → s.node? n = some x → ∃ v ∈ vs, r.pool.get? v = none ∧
    s.pool.get? v = some n ∧ x = .fresh (.value v) none none
  pooled : ∀ v n, r.pool.get? v = some n → s.pool.get? v = some n
  shared : ∀ v n, s.pool.get? v = some n → r.pool.get? v = some n ∨ v ∈ vs
  filled : ∀ v ∈ vs, ∃ n, s.pool.get? v = some n

/-- What is left of the registry `r` of a root without a body: the shared nodes of the globals are
there, and the name of one graph is spent. -/
structure Refuses (vs : List ValueId) (r t : Registry) : Prop extends Fills vs r t where
  graph : ∀ g, t.graph? g = r.graph? g
  lookup : t.lookup? = r.lookup?
  gathered : t.gathered = r.gathered
  next : t.graphs.next = r.graphs.next + 1

variable {r s t : Registry} {v : ValueId} {vs : List ValueId}

theorem Fills.of_contains (h : ∀ v ∈ vs, ∃ n, r.pool.get? v = some n) : Fills vs r r where
  kept _ _ hx := hx
  added n x hnone hx := by
    rw [hnone] at hx
    cases hx
  pooled _ _ hn := hn
  shared _ _ hn := .inl hn
  filled := h

theorem Fills.trans {ws : List ValueId} (h : Fills vs r s) (h' : Fills ws s t) :
    Fills (vs ++ ws) r t where
  kept n x hx := h'.kept n x (h.kept n x hx)
  added n x hnone hx := by
    cases hs : s.node? n with
    | none =>
      obtain ⟨v, hv, hpool, hnew, hfresh⟩ := h'.added n x hs hx
      refine ⟨v, List.mem_append_right _ hv, ?_, hnew, hfresh⟩
      -- a value that had a shared node would have kept it
      refine Option.eq_none_iff_forall_ne_some.2 fun k hk => ?_
      rw [h.pooled v k hk] at hpool
      cases hpool
    | some z =>
      rw [h'.kept n z hs] at hx
      cases hx
      obtain ⟨v, hv, hpool, hnew, hfresh⟩ := h.added n x hnone hs
      exact ⟨v, List.mem_append_left _ hv, hpool, h'.pooled v n hnew, hfresh⟩
  pooled v n hn := h'.pooled v n (h.pooled v n hn)
  shared v n hn := by
    rcases h'.shared v n hn with hn | hv
    · exact (h.shared v n hn).imp_right (List.mem_append_left _)
    · exact .inr (List.mem_append_right _ hv)
  filled v hv := by
    rcases List.mem_append.1 hv with hv | hv
    · obtain ⟨n, hn⟩ := h.filled v hv
      exact ⟨n, h'.pooled v n hn⟩
    · exact h'.filled v hv

theorem fills_giveShared (hv : r.pool.get? v = none) : Fills [v] r (r.giveShared v) := by
  -- one more global has a node in the pool, and it had none before
  have hpool : ∀ w, (r.giveShared v).pool.get? w =
      if w = v then some r.nextNode else r.pool.get? w :=
    fun w => OrderedMap.get?_insert r.pool v w r.nextNode
  constructor
  case kept =>
    intro n x hx
    rw [node?_giveShared, if_neg (ne_nextNode hx), hx]
  case added =>
    intro n x hnone hx
    rw [node?_giveShared] at hx
    split at hx
    · rename_i hn
      cases hx
      exact ⟨v, List.mem_singleton_self v, hv, by rw [hpool, if_pos rfl, hn], rfl⟩
    · rw [hnone] at hx
      cases hx
  case pooled =>
    intro w n hn
    rw [hpool, if_neg, hn]
    rintro rfl
    rw [hv] at hn
    cases hn
  case shared =>
    intro w n hn
    rw [hpool] at hn
    split at hn
    · rename_i hw
      exact .inr (List.mem_singleton.2 hw)
    · exact .inl hn
  case filled =>
    intro w hw
    exact ⟨r.nextNode, by rw [hpool, if_pos (List.mem_singleton.1 hw)]⟩

/-- Filling the pool. -/
theorem fills_withGlobals (r : Registry) (vs : List ValueId) : Fills vs r (r.withGlobals vs) := by
  induction vs generalizing r with
  | nil => exact .of_contains fun _ hv => absurd hv List.not_mem_nil
  | cons v vs ih =>
    have hshare : Fills [v] r (r.share v) := by
      unfold share
      cases hv : r.pool.contains v with
      | true =>
        refine .of_contains fun w hw => ?_
        rw [List.mem_singleton.1 hw]
        exact OrderedMap.contains_eq_true_iff.1 hv
      | false => exact fills_giveShared (OrderedMap.contains_eq_false_iff.1 hv)
    exact hshare.trans (ih (r.share v))

theorem Orderly.withGlobals {e : Setup} (hr : r.Orderly e.program) (vs : List ValueId) :
    (r.withGlobals vs).Orderly e.program := by
  induction vs generalizing r with
  | nil => exact hr
  | cons v vs ih =>
    refine ih (r := r.share v) ?_
    unfold share
    cases hv : r.pool.contains v with
    | true => exact hr
    | false => exact hr.change (.quiet (.shared (OrderedMap.contains_eq_false_iff.1 hv)))

theorem Spends.refuses (h : (r.withGlobals vs).Spends t) : r.Refuses vs t := by
  have hfills := fills_withGlobals r vs
  have hnode : t.node? = (r.withGlobals vs).node? := h.node?
  constructor
  case toFills =>
    constructor
    case kept => exact hnode ▸ hfills.kept
    case added => exact hnode ▸ h.pool ▸ hfills.added
    case pooled => exact h.pool ▸ hfills.pooled
    case shared => exact h.pool ▸ hfills.shared
    case filled => exact h.pool ▸ hfills.filled
  case graph =>
    intro g
    rw [h.graph, graph?, graphs_withGlobals, graph?]
  case lookup => rw [h.lookup, lookup?_withGlobals]
  case gathered => rw [h.gathered, gathered_withGlobals]
  case next => rw [h.next, graphs_withGlobals]

end Registry

namespace Work

variable {e : Setup} {r : Registry} {f : FunctionId} {x : Function} {name : String}

/-- Whatever a piece of work does, there is the rest. -/
theorem wp_after {α β : Type} {Q : β → Registry → Prop} {w : Work α} {k : α → Work β}
    (h : ∀ a s, wp Fault.Any (k a) Q s) : wp Fault.Any (w >>= k) Q r := by
  refine wp_bind (P := fun _ _ => True) ?_ fun a s _ => h a s
  unfold wp
  intro es
  split <;> trivial

/-- A root that names no function is refused at once. -/
theorem constructRoot_unknown (hname : e.program.functionNamed? name = none) :
    wp Fault.Never (constructRoot e name) (fun a t => a = .error (.unknown name) ∧ t = r) r := by
  unfold constructRoot
  rw [hname]
  exact wp_report (wp_pure ⟨rfl, rfl⟩)

/-- A function with a body is built. -/
theorem buildWith_of_isDefined {request : FunctionId → Work GraphId} {g : GraphId} {y : Graph}
    (hy : r.graph? g = some y) (hx : e.program.function y.function = .ok x)
    (hdef : x.isDefined = true) :
    wp Fault.Any (buildWith request e g) (fun isBuilt _ => isBuilt = true) r := by
  unfold buildWith
  refine wp_graph (fun z hz => ?_) fun _ => trivial
  rw [hy] at hz
  cases hz
  refine wp_ask (fun z hz => ?_) fun _ _ => trivial
  rw [hx] at hz
  cases hz
  rw [if_neg (by simp [hdef])]
  refine wp_report ?_
  -- all that is left is done, or else there is no answer
  repeat' first
    | exact wp_pure rfl
    | refine wp_after fun _ _ => ?_
    | split

/-- A function without a body is left alone. -/
theorem buildWith_of_not_isDefined {request : FunctionId → Work GraphId} {g : GraphId} {y : Graph}
    (hy : r.graph? g = some y) (hx : e.program.function y.function = .ok x)
    (hdef : x.isDefined = false) :
    wp Fault.Never (buildWith request e g) (fun isBuilt t => isBuilt = false ∧ t = r) r := by
  unfold buildWith
  refine wp_graph (fun z hz => ?_) fun hnone => absurd (hy.symm.trans hnone) nofun
  rw [hy] at hz
  cases hz
  refine wp_ask (fun z hz => ?_) fun _ hz => absurd (hx.symm.trans hz) nofun
  rw [hx] at hz
  cases hz
  rw [if_pos (by simp [hdef])]
  exact wp_pure ⟨rfl, rfl⟩

theorem constructRoot_of_isDefined (hname : e.program.functionNamed? name = some f)
    (hx : e.program.function f = .ok x) (hdef : x.isDefined = true) :
    wp Fault.Any (constructRoot e name) (fun root? _ => ∃ g, root? = .ok g) r := by
  unfold constructRoot
  rw [hname]
  refine wp_after fun _ s => wp_registry ?_
  cases hf : s.lookup? f with
  | some g => exact wp_after fun _ _ => wp_pure ⟨g, rfl⟩
  | none =>
    refine wp_report (wp_newGraph hf ?_)
    have hg : (s.pushGraph (.fresh f)).graph? s.nextGraph = some (.fresh f) := by simp
    refine wp_bind (buildWith_of_isDefined hg hx hdef) fun isBuilt t hbuilt => ?_
    rw [if_pos hbuilt]
    exact wp_registry (wp_report (wp_pure ⟨_, rfl⟩))

/-- **Declarations.** A root without a body leaves the shared nodes, and the name of a graph that is
spent. -/
theorem constructRoot_declaration (hr : r.Orderly e.program)
    (hname : e.program.functionNamed? name = some f) (hx : e.program.function f = .ok x)
    (hdef : x.isDefined = false) (hf : r.lookup? f = none) :
    wp Fault.Never (constructRoot e name) (fun root? t => root? = .error (.declaration name) ∧
      (r.withGlobals e.program.globals).Spends t) r := by
  unfold constructRoot
  rw [hname]
  refine wp_bind (addGlobals_eq e.program) fun _ s hs => wp_registry ?_
  have hfs : s.lookup? f = none := by rw [hs, lookup?_withGlobals, hf]
  have ho : s.Orderly e.program := hs ▸ hr.withGlobals _
  have hg : (s.pushGraph (.fresh f)).graph? s.nextGraph = some (.fresh f) := by simp
  rw [hfs]
  refine wp_report (wp_newGraph hfs (wp_bind (buildWith_of_not_isDefined hg hx hdef) ?_))
  rintro _ _ ⟨rfl, rfl⟩
  exact wp_bind (destroy_fresh_spec ho hfs) fun _ t ht => wp_pure ⟨rfl, hs ▸ ht⟩

end Work

end Sdg
