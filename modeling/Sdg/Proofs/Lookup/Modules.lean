import Sdg.Export.Basic
import Sdg.Proofs.Safety.Sane

/-!
# Lookups in closed modules

An id is in range if it names an entry of its table. In a closed module all that stands in an entry
is in range, so a query at ids in range is answered, and what it answers is in range again. That is
what lets one query go on where another one ended.

Main results:

* `Module.IsClosed.answers` — every query of a closed module is answered at ids in range;
* `Module.IsClosed.exists_controlScopes` — so are the control scopes of a function.
-/

namespace Sdg

/-! ## Ids in range -/

/-- Whether what a node stands for is in range. -/
def NodeKey.Within (m : Module) : NodeKey → Prop
  | .value v => v.Within m
  | .exit f _ | .variadic f => f.Within m

/-- Where control goes next is named. -/
theorem Operation.successors_subset (op : Operation) : op.successors ⊆ op.namedBlocks := by
  cases op <;> simp [successors, namedBlocks]

/-- Whether every query at ids in range is answered, with ids in range. -/
structure Module.Answers (m : Module) : Prop where
  function : ∀ f : FunctionId, f.Within m → ∃ x, m.function f = .ok x ∧ x.Within m
  block : ∀ b : BlockId, b.Within m → ∃ x, m.block b = .ok x ∧ x.Within m
  value : ∀ v : ValueId, v.Within m → ∃ x, m.value v = .ok x ∧ x.kind.Within m
  globals : ∀ v ∈ m.globals, v.Within m
  functionNamed : ∀ name f, m.functionNamed? name = some f → f.Within m
  instruction : ∀ v : ValueId, v.Within m →
    ∃ i?, m.instruction? v = .ok i? ∧ ∀ i ∈ i?, i.Within m
  terminator : ∀ b : BlockId, b.Within m → ∃ i?, m.terminator? b = .ok i? ∧ ∀ i ∈ i?, i.Within m
  successors : ∀ b : BlockId, b.Within m → ∃ l, m.successors b = .ok l ∧ ∀ s ∈ l, s.Within m
  asFunction : ∀ v : ValueId, v.Within m → ∃ f?, m.asFunction? v = .ok f? ∧ ∀ f ∈ f?, f.Within m
  isGlobal : ∀ v : ValueId, v.Within m → ∃ b, m.isGlobal v = .ok b
  valueName : ∀ v : ValueId, v.Within m → ∃ name?, m.valueName? v = .ok name?
  stripCasts : ∀ v : ValueId, v.Within m → ∃ w, m.stripCasts v = .ok w ∧ w.Within m
  stripOffsets : ∀ v : ValueId, v.Within m → ∃ w, m.stripOffsets v = .ok w ∧ w.Within m

namespace Module

variable {m : Module} {f : FunctionId} {b : BlockId} {v w : ValueId}

/-- What was stripped is in range. -/
theorem within_of_stripCasts (h : m.stripCasts v = .ok w) : v.Within m := by
  obtain ⟨x, hx, _⟩ := bind_eq_ok.1 h
  exact index_lt_of_value hx

namespace IsClosed

variable (hm : m.IsClosed)

include hm

/-! ## Queries -/

theorem exists_instruction_within (hv : v.Within m) :
    ∃ i?, m.instruction? v = .ok i? ∧ ∀ i ∈ i?, i.Within m := by
  obtain ⟨x, hx⟩ := exists_value hv
  obtain ⟨i?, hi⟩ := exists_instruction? hx
  refine ⟨i?, hi, fun i hmem => ?_⟩
  rw [Option.mem_def.1 hmem] at hi
  exact hm.within_of_instruction? hi

theorem exists_terminator_within (hb : b.Within m) :
    ∃ i?, m.terminator? b = .ok i? ∧ ∀ i ∈ i?, i.Within m := by
  obtain ⟨x, hx⟩ := exists_block hb
  simp only [terminator?, hx, bind, Except.bind]
  cases hl : x.instructions.getLast? with
  | none => exact ⟨none, rfl, fun _ hi => by cases hi⟩
  | some v =>
    have hv := (hm.within_of_block hx).instructions v (List.mem_of_getLast? hl)
    exact hm.exists_instruction_within hv

theorem exists_successors_within (hb : b.Within m) :
    ∃ l, m.successors b = .ok l ∧ ∀ s ∈ l, s.Within m := by
  obtain ⟨i?, hi, hin⟩ := hm.exists_terminator_within hb
  simp only [successors, hi, bind, Except.bind]
  cases i? with
  | none => exact ⟨[], rfl, fun _ hs => absurd hs List.not_mem_nil⟩
  | some i => exact ⟨_, rfl, fun s hs => (hin i rfl).namedBlocks s (i.op.successors_subset hs)⟩

theorem exists_asFunction_within (hv : v.Within m) :
    ∃ f?, m.asFunction? v = .ok f? ∧ ∀ f ∈ f?, f.Within m := by
  obtain ⟨x, hx⟩ := exists_value hv
  obtain ⟨f?, hf⟩ := exists_asFunction? hx
  refine ⟨f?, hf, fun f hmem => ?_⟩
  rw [Option.mem_def.1 hmem] at hf
  exact hm.within_of_asFunction? hf

theorem exists_valueName (hv : v.Within m) : ∃ name?, m.valueName? v = .ok name? := by
  obtain ⟨x, hx⟩ := exists_value hv
  have hin := hm.within_of_value hx
  simp only [valueName?, hx, bind, Except.bind]
  cases hk : x.kind with
  | function f =>
    -- the name of a function is in the other table
    rw [hk] at hin
    obtain ⟨y, hy⟩ := exists_function hin
    exact ⟨some y.name, by simp only [hy]; rfl⟩
  | _ => exact ⟨x.name, rfl⟩

/-- **Queries.** Every query of a closed module at ids in range is answered, with ids in range. -/
theorem answers : m.Answers where
  function f hf := by
    obtain ⟨x, hx⟩ := exists_function hf
    exact ⟨x, hx, hm.within_of_function hx⟩
  block b hb := by
    obtain ⟨x, hx⟩ := exists_block hb
    exact ⟨x, hx, hm.within_of_block hx⟩
  value v hv := by
    obtain ⟨x, hx⟩ := exists_value hv
    exact ⟨x, hx, hm.within_of_value hx⟩
  globals _ hv := hm.within_of_globals hv
  functionNamed name f hname := by
    obtain ⟨x, hx⟩ := exists_function_of_named hname
    exact index_lt_of_function hx
  instruction _ hv := hm.exists_instruction_within hv
  terminator _ hb := hm.exists_terminator_within hb
  successors _ hb := hm.exists_successors_within hb
  asFunction _ hv := hm.exists_asFunction_within hv
  isGlobal v hv := by
    obtain ⟨x, hx⟩ := exists_value hv
    exact exists_isGlobal hx
  valueName _ hv := hm.exists_valueName hv
  stripCasts _ hv := hm.exists_strip false hv
  stripOffsets _ hv := hm.exists_strip true hv

/-! ## Questions of several queries -/

/-- The control scopes of a function in range are told for every block id, and hold blocks in
range. -/
theorem exists_controlScopes (hf : f.Within m) :
    ∃ scope, postDominanceScopes m f = .ok scope ∧ ∀ b, ∀ c ∈ scope b, c.Within m := by
  obtain ⟨x, hx⟩ := exists_function hf
  obtain ⟨scope, hscope, hblocks⟩ := hm.exists_scopes hx
  exact ⟨scope, hscope, fun b c hc => (hm.within_of_function hx).blocks c (hblocks b c hc)⟩

/-- The operation behind a node is told, and its operands are in range. -/
theorem exists_operation {key : NodeKey} (hkey : key.Within m) :
    ∃ op?, m.operation? key = .ok op? ∧ ∀ op ∈ op?, ∀ v ∈ op.operands, v.Within m := by
  cases key with
  | value v =>
    obtain ⟨i?, hi, hin⟩ := hm.exists_instruction_within hkey
    refine ⟨_, operation?_value hi, fun op hop => ?_⟩
    obtain ⟨i, hmem, rfl⟩ := Option.map_eq_some_iff.1 hop
    exact (hin i hmem).operands
  | _ => exact ⟨none, rfl, nofun⟩

/-- The label of a node is told. -/
theorem exists_label {key : NodeKey} (hkey : key.Within m) : ∃ s, m.label key = .ok s := by
  cases key with
  | value v =>
    obtain ⟨x, hx⟩ := exists_value hkey
    obtain ⟨i?, hi, _⟩ := hm.exists_instruction_within hkey
    obtain ⟨name?, hname⟩ := hm.exists_valueName hkey
    simp only [label, hi, hname, hx, bind, Except.bind]
    cases i? with
    | some i => exact ⟨_, rfl⟩
    | none =>
      cases name? with
      | none => exact ⟨_, rfl⟩
      | some name => cases x.kind <;> exact ⟨_, rfl⟩
  | exit f kind =>
    obtain ⟨x, hx⟩ := exists_function hkey
    exact ⟨_, by simp only [label, hx, bind, Except.bind]; rfl⟩
  | variadic f =>
    obtain ⟨x, hx⟩ := exists_function hkey
    exact ⟨_, by simp only [label, hx, bind, Except.bind]; rfl⟩

end IsClosed

end Module

end Sdg
