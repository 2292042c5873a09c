import Sdg.Proofs.Flow.Dependence
import Sdg.Proofs.Formals.Access
import Sdg.Proofs.Rules

/-!
# Sane setups

What a module, an oracle and a provider of scopes have to be like for a construction to come to its
end without a fault. `Module.Sane` is about a module alone; a setup is sane if its module is, the
oracle says nothing that the module has no answer to, and the scopes are those of post-dominance. A
fault is blamed on a setup that is not sane.

Main results:

* `Module.IsClosed.exists_strip`, `Module.IsClosed.exists_callFits` — what a visit asks of a closed
  module is answered;
* `Module.IsClosed.exists_scopes` — a closed module has control scopes, made of blocks of the
  function.
-/

namespace Sdg

/-- Whether the bodies of functions have no gaps and keep control to themselves. -/
structure Module.Contained (m : Module) : Prop where
  filled : ∀ f x b y, m.function f = .ok x → b ∈ x.blocks → m.block b = .ok y →
    y.instructions ≠ []
  /-- Where control goes is within the function, in one of fewer ways than there are labels. -/
  flows : ∀ f x b l, m.function f = .ok x → b ∈ x.blocks → m.successors b = .ok l →
    l.length ≤ exitLabel ∧ ∀ s ∈ l, s ∈ x.blocks
  /-- Control comes to a phi from within the function. -/
  phis : ∀ f x b y v i incoming, m.function f = .ok x → b ∈ x.blocks → m.block b = .ok y →
    v ∈ y.instructions → m.instruction? v = .ok (some i) → i.op = .phi incoming →
      ∀ p ∈ incoming, p.2 ∈ x.blocks

/-- What a module has to be like for a construction to come to its end. -/
structure Module.Sane (m : Module) : Prop extends m.Contained where
  closed : m.IsClosed
  /-- What stands for a function is no instruction. -/
  named : ∀ f x, m.function f = .ok x → m.instruction? x.value = .ok none
  /-- What stands in a block is an instruction that says so. -/
  placed : ∀ b y v, m.block b = .ok y → v ∈ y.instructions →
    ∃ i, m.instruction? v = .ok (some i) ∧ i.block = b
  distinct : ∀ b y, m.block b = .ok y → y.instructions.Nodup
  distinctBlocks : ∀ f x, m.function f = .ok x → x.blocks.Nodup

/-- Whether an oracle names only values that there are, and for a call no other name of what is no
function. -/
def PointsTo.Safe (p : PointsTo) (m : Module) : Prop :=
  ∀ v, ∀ q ∈ p m v, q.isValid = true → ∃ x, m.value q.target = .ok x ∧
    ∀ a, x.kind = .aliasOf a → ∃ f, m.Names q.target (some f)

/-- Whether nothing that is given stands in the way of a construction. -/
structure Setup.Sane (e : Setup) : Prop where
  program : e.program.Sane
  scopes : e.scopes = postDominanceScopes
  pointsTo : ∀ p, e.pointsTo? = some p → p.Safe e.program

/-- Whether a fault is to be blamed on what was given. -/
def Setup.Blames (e : Setup) (f : Fault) : Prop := f.Genuine ∧ ¬ e.Sane

/-- Whether the module has a body for the function. -/
def Module.Defines (m : Module) (f : FunctionId) : Prop :=
  ∃ x, m.function f = .ok x ∧ x.isDefined = true

theorem Setup.MayRun.defines {e : Setup} {v : ValueId} {f : FunctionId} (h : e.MayRun v f) :
    e.program.Defines f := by
  cases h with
  | named _ _ hx hdef => exact ⟨_, hx, hdef⟩
  | pointed _ _ _ _ hleads =>
    obtain ⟨_, _, x, hx, hdef, _⟩ := hleads
    exact ⟨x, hx, hdef⟩

/-! ## Queries of closed modules -/

/-- What an operation uses as an address it reads. -/
theorem Operation.addresses_subset (op : Operation) : op.addresses ⊆ op.operands := by
  cases op <;> simp [addresses, operands]

/-- The value that a value adjusts stands in it. -/
theorem ValueKind.Within.adjusted {m : Module} {k : ValueKind} {w : ValueId} {offsets : Bool}
    (hk : k.Within m) (h : k.adjusted? offsets = some w) : w.Within m := by
  unfold ValueKind.adjusted? at h
  split at h
  · cases h
    exact hk
  · cases h
    exact hk
  · split at h
    · cases h
      exact hk
    · cases h
  · cases h
    exact hk.operands w List.mem_cons_self
  · split at h
    · cases h
      exact hk.operands w List.mem_cons_self
    · cases h
  · cases h

namespace Module

variable {m : Module} {f : FunctionId} {v w : ValueId} {x : Value}

theorem exists_isGlobal (hx : m.value v = .ok x) : ∃ b, m.isGlobal v = .ok b := by
  simp only [isGlobal, hx, bind, Except.bind]
  split <;> exact ⟨_, rfl⟩

theorem exists_asFunction? (hx : m.value v = .ok x) : ∃ f?, m.asFunction? v = .ok f? := by
  simp only [asFunction?, hx, bind, Except.bind]
  split <;> exact ⟨_, rfl⟩

theorem value_of_asFunction? (h : m.asFunction? v = .ok (some f)) :
    ∃ x, m.value v = .ok x ∧ x.kind = .function f := by
  unfold asFunction? at h
  obtain ⟨x, hx, h⟩ := bind_eq_ok.1 h
  refine ⟨x, hx, ?_⟩
  cases hk : x.kind <;> simp [hk, pure, Except.pure] at h
  rw [h]

/-- Whether arguments fit parameters can be told if all of them are values. -/
theorem exists_argumentsFit {formals actuals : List ValueId}
    (hp : ∀ w ∈ formals, ∃ z, m.value w = .ok z) (ha : ∀ w ∈ actuals, ∃ z, m.value w = .ok z) :
    ∃ b, m.argumentsFit formals actuals = .ok b := by
  induction formals generalizing actuals with
  | nil => exact ⟨true, rfl⟩
  | cons p formals ih =>
    cases actuals with
    | nil => exact ⟨true, rfl⟩
    | cons a actuals =>
      obtain ⟨z, hz⟩ := hp p List.mem_cons_self
      obtain ⟨z', hz'⟩ := ha a List.mem_cons_self
      simp only [argumentsFit, hz, hz', bind, Except.bind]
      split
      · exact ih (fun w hw => hp w (List.mem_cons_of_mem _ hw))
          fun w hw => ha w (List.mem_cons_of_mem _ hw)
      · exact ⟨false, rfl⟩

theorem exists_callFits_of_value {y : Function} {args : List ValueId} (hx : m.value v = .ok x)
    (hp : ∀ w ∈ y.params, ∃ z, m.value w = .ok z) (ha : ∀ w ∈ args, ∃ z, m.value w = .ok z) :
    ∃ b, m.callFits y v args = .ok b := by
  unfold callFits
  split
  · exact ⟨false, rfl⟩
  · simp only [hx, bind, Except.bind]
    split
    · exact exists_argumentsFit hp ha
    · exact ⟨false, rfl⟩

/-- Whether bodies are contained can be told from the tables. -/
theorem Contained.of_tables (h : ∀ x ∈ m.functions.toList, ∀ b ∈ x.blocks,
    (∀ y ∈ (m.block b).toOption, y.instructions ≠ [] ∧ ∀ v ∈ y.instructions,
      ∀ i ∈ (m.instruction? v).toOption.join, ∀ c ∈ i.op.namedBlocks, c ∈ x.blocks) ∧
    ∀ l ∈ (m.successors b).toOption, l.length ≤ exitLabel ∧ ∀ s ∈ l, s ∈ x.blocks) :
    m.Contained := by
  have hmem : ∀ f x, m.function f = .ok x → x ∈ m.functions.toList := fun f x hx =>
    (Array.mem_of_getElem? (getElem?_of_function hx)).val
  refine ⟨fun f x b y hx hb hy => ?_, fun f x b l hx hb hl => ?_,
    fun f x b y v i incoming hx hb hy hv hi hop p hp => ?_⟩
  · exact ((h x (hmem f x hx) b hb).1 y (by simp [hy, Except.toOption])).1
  · exact (h x (hmem f x hx) b hb).2 l (by simp [hl, Except.toOption])
  · refine ((h x (hmem f x hx) b hb).1 y (by simp [hy, Except.toOption])).2 v hv i
      (by simp [hi, Except.toOption]) p.2 ?_
    rw [hop]
    exact List.mem_map_of_mem hp

namespace IsClosed

variable (hm : m.IsClosed)

include hm

theorem param_of_mem {y : Function} (hy : m.function f = .ok y) (hv : v ∈ y.params) :
    ∃ x, m.value v = .ok x :=
  exists_value ((hm.within_of_function hy).params v hv)

theorem value_of_inBody (hv : m.InBody f v) : ∃ x, m.value v = .ok x := by
  obtain ⟨_, _, _, _, _, hy, hv⟩ := hv
  exact hm.value_of_mem hy hv

theorem within_of_instruction? {i : Instruction} (hi : m.instruction? v = .ok (some i)) :
    i.Within m := by
  obtain ⟨x, hx, hk⟩ := value_of_instruction? hi
  exact (hk ▸ hm.within_of_value hx : (ValueKind.instruction i).Within m)

/-- What an instruction reads is there. -/
theorem operand_of_mem {i : Instruction} (hi : m.instruction? v = .ok (some i))
    (hw : w ∈ i.op.operands) : ∃ y, m.value w = .ok y :=
  exists_value ((hm.within_of_instruction? hi).operands w hw)

theorem within_of_asFunction? (h : m.asFunction? v = .ok (some f)) : f.Within m := by
  obtain ⟨x, hx, hk⟩ := value_of_asFunction? h
  exact (hk ▸ hm.within_of_value hx : (ValueKind.function f).Within m)

theorem function_of_asFunction? (h : m.asFunction? v = .ok (some f)) :
    ∃ y, m.function f = .ok y :=
  exists_function (hm.within_of_asFunction? h)

/-- The end of a chain of adjusted values is in range, however long the walk to it. -/
theorem exists_strip (offsets : Bool) (hv : v.Within m) :
    ∃ w, m.strip offsets v = .ok w ∧ w.Within m := by
  suffices h : ∀ steps (v : ValueId), v.Within m →
      ∃ w, m.stripWithin offsets steps v = .ok w ∧ w.Within m from h _ v hv
  intro steps
  induction steps with
  | zero => exact fun v hv => ⟨v, rfl, hv⟩
  | succ steps ih =>
    intro v hv
    obtain ⟨x, hx⟩ := exists_value hv
    simp only [stripWithin, hx, bind, Except.bind]
    cases hk : x.kind.adjusted? offsets with
    | none => exact ⟨v, rfl, hv⟩
    | some next => exact ih next ((hm.within_of_value hx).adjusted hk)

/-- Whether a call may run a function can be told. -/
theorem exists_callFits {y : Function} {i : Instruction} {callee : ValueId} {args : List ValueId}
    (hy : m.function f = .ok y) (hi : m.instruction? v = .ok (some i))
    (hop : i.op = .call callee args) : ∃ b, m.callFits y v args = .ok b := by
  obtain ⟨x, hx, _⟩ := value_of_instruction? hi
  refine exists_callFits_of_value hx (fun w hw => hm.param_of_mem hy hw) fun w hw => ?_
  exact hm.operand_of_mem hi (by rw [hop]; exact List.mem_cons_of_mem _ hw)

/-- What a value names can be told. -/
theorem exists_names (hx : m.value v = .ok x) :
    ∃ t f?, m.stripCasts v = .ok t ∧ m.asFunction? t = .ok f? := by
  obtain ⟨t, ht, hin⟩ := hm.exists_strip false (index_lt_of_value hx)
  obtain ⟨y, hy⟩ := exists_value hin
  obtain ⟨f?, hf⟩ := exists_asFunction? hy
  exact ⟨t, f?, ht, hf⟩

/-- So can what an address leads to. -/
theorem exists_base (hx : m.value v = .ok x) :
    ∃ t b, m.stripOffsets v = .ok t ∧ m.isGlobal t = .ok b := by
  obtain ⟨t, ht, hin⟩ := hm.exists_strip true (index_lt_of_value hx)
  obtain ⟨y, hy⟩ := exists_value hin
  obtain ⟨b, hb⟩ := exists_isGlobal hy
  exact ⟨t, b, ht, hb⟩

/-- The scopes of a function can be told, and hold blocks of the function alone. -/
theorem exists_scopes {y : Function} (hy : m.function f = .ok y) :
    ∃ scope, postDominanceScopes m f = .ok scope ∧ ∀ b, ∀ c ∈ scope b, c ∈ y.blocks := by
  obtain ⟨g, hg⟩ := hm.exists_flow (index_lt_of_function hy)
  obtain ⟨hnd, hblocks, _⟩ := flow_eq hg
  have hhas : ∀ c, m.HasBlock f c → c ∈ y.blocks := by
    intro c hp
    obtain ⟨y', hy', hc⟩ := hp
    rw [hy] at hy'
    cases hy'
    exact hc
  refine ⟨g.scope (.ofFlow g), bind_eq_ok.2 ⟨g, hg, rfl⟩, fun b c hc => hhas c ?_⟩
  unfold Flow.scope at hc
  split at hc
  · exact absurd hc List.not_mem_nil
  · obtain ⟨s, hs, hc⟩ := List.mem_flatMap.1 (OrderedSet.mem_ofList.1 hc)
    have hgoes := (next_iff hg).1 hs
    -- what a successor decides is that successor, or lies on a way through the function
    rcases (mem_decidedBy hg hgoes).1 hc with ⟨_, rfl⟩ | ⟨⟨p, hp⟩, hall, _⟩
    · exact hgoes.2.1
    · exact (hblocks c).1 (((exitWay_iff hg).2 hp).subset hnd (hall p hp))

end IsClosed

end Module

end Sdg
