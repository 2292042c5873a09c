import Sdg.Build.Setup
import Sdg.Graph.Key

/-!
# What a body touches

The globals that the body of a function reaches through an address, the calls in it that make a heap
object, and the functions that its calls may run. All three are read off what is given, with no
graph in sight.
-/

namespace Sdg

/-- The values that an operation uses as addresses, a stored value included. -/
def Operation.addresses : Operation → List ValueId
  | load address => [address]
  | getElementPtr base _ _ => [base]
  | store value address => [value, address]
  | _ => []

namespace Module

/-- Whether a value stands in a block of the function. -/
def InBody (m : Module) (f : FunctionId) (v : ValueId) : Prop :=
  ∃ x b y, m.function f = .ok x ∧ b ∈ x.blocks ∧ m.block b = .ok y ∧ v ∈ y.instructions

/-- Whether the instruction `w` uses an address in the global `v`. -/
def UsesGlobal (m : Module) (w v : ValueId) : Prop :=
  ∃ i a, m.instruction? w = .ok (some i) ∧ a ∈ i.op.addresses ∧ m.stripOffsets a = .ok v ∧
    m.isGlobal v = .ok true

/-- Whether an instruction of the function uses an address in the global `v`. -/
def Touches (m : Module) (f : FunctionId) (v : ValueId) : Prop :=
  ∃ w, m.InBody f w ∧ m.UsesGlobal w v

/-- Whether the value `v` is a call of the value `callee` with these arguments. -/
def IsCallOf (m : Module) (v callee : ValueId) (args : List ValueId) : Prop :=
  ∃ i, m.instruction? v = .ok (some i) ∧ i.op = .call callee args

/-- Whether the value `w` is, behind casts and aliases, this function, or no function. -/
def Names (m : Module) (w : ValueId) (f? : Option FunctionId) : Prop :=
  ∃ t, m.stripCasts w = .ok t ∧ m.asFunction? t = .ok f?

/-- Whether it is told what the call `v` calls: no function, or one that there is. -/
def Tells (m : Module) (v : ValueId) : Prop :=
  ∀ callee args, m.IsCallOf v callee args →
    ∃ f?, m.Names callee f? ∧ ∀ f ∈ f?, ∃ x, m.function f = .ok x

/-- Whether a value is a declared argument of some function. -/
def IsArgument (m : Module) (v : ValueId) : Prop :=
  ∃ x f i, m.value v = .ok x ∧ x.kind = .argument f i

/-- Whether the parameters that functions declare are arguments. -/
def DeclaresArguments (m : Module) : Prop :=
  ∀ f x, m.function f = .ok x → ∀ v ∈ x.params, m.IsArgument v

end Module

/-- Whether `v` is a call of a function that allocates. -/
def Setup.IsAllocation (e : Setup) (v : ValueId) : Prop :=
  ∃ callee args h x, e.program.IsCallOf v callee args ∧ e.program.Names callee (some h) ∧
    e.program.function h = .ok x ∧ e.settings.isAllocator x.name = true

/-- Whether `v` is a call in the body of the function `f` of a function that allocates. -/
def Setup.Allocates (e : Setup) (f : FunctionId) (v : ValueId) : Prop :=
  e.program.InBody f v ∧ e.IsAllocation v

/-- Whether the call `v` names a function whose calls are gathered. -/
def Setup.Gathers (e : Setup) (v : ValueId) : Prop :=
  ∃ callee args f x, e.program.IsCallOf v callee args ∧ e.program.Names callee (some f) ∧
    e.program.function f = .ok x ∧ e.settings.gathered = some x.name

/-- Whether a call `v` with these arguments may run the function `f` if the pointee `p` is what it
calls: the function has a body, and it fits the call. -/
def Pointee.LeadsTo (m : Module) (v : ValueId) (args : List ValueId) (p : Pointee)
    (f : FunctionId) : Prop :=
  p.isValid = true ∧ m.Names p.target (some f) ∧ ∃ x, m.function f = .ok x ∧ x.isDefined = true ∧
    m.callFits x v args = .ok true

/-- Whether the call `v` may run the function `f`: it names it, or it names no function and a
pointee leads to it. -/
inductive Setup.MayRun (e : Setup) (v : ValueId) (f : FunctionId) : Prop where
  | named {callee : ValueId} {args : List ValueId} {x : Function} :
      e.program.IsCallOf v callee args → e.program.Names callee (some f) →
      e.program.function f = .ok x → x.isDefined = true → MayRun e v f
  | pointed {callee : ValueId} {args : List ValueId} {pointsTo : PointsTo} {p : Pointee} :
      e.program.IsCallOf v callee args → e.program.Names callee none →
      e.pointsTo? = some pointsTo → p ∈ pointsTo e.program callee →
      p.LeadsTo e.program v args f → MayRun e v f

/-- Whether a call in the body of the function `f` may run the function `h`. -/
def Setup.Runs (e : Setup) (f h : FunctionId) : Prop :=
  ∃ v, e.program.InBody f v ∧ e.MayRun v h

namespace Module

variable {m : Module} {f : FunctionId} {v : ValueId}

theorem IsCallOf.inj {callee callee' : ValueId} {args args' : List ValueId}
    (h : m.IsCallOf v callee args) (h' : m.IsCallOf v callee' args') :
    callee' = callee ∧ args' = args := by
  obtain ⟨i, hi, hop⟩ := h
  obtain ⟨i', hi', hop'⟩ := h'
  rw [hi] at hi'
  cases hi'
  rw [hop] at hop'
  cases hop'
  exact ⟨rfl, rfl⟩

/-- Names are read off in one way. -/
theorem Names.inj {w : ValueId} {f? f?' : Option FunctionId} (h : m.Names w f?)
    (h' : m.Names w f?') : f?' = f? := by
  obtain ⟨t, ht, hf⟩ := h
  obtain ⟨t', ht', hf'⟩ := h'
  rw [ht] at ht'
  cases ht'
  rw [hf] at hf'
  cases hf'
  rfl

theorem Touches.isGlobal (h : m.Touches f v) : m.isGlobal v = .ok true := by
  obtain ⟨_, _, _, _, _, _, _, hg⟩ := h
  exact hg

/-- What a query of a value says depends on its kind alone. -/
theorem value_of_isGlobal (h : m.isGlobal v = .ok true) :
    ∃ x, m.value v = .ok x ∧ x.kind = .global := by
  unfold isGlobal at h
  cases hx : m.value v with
  | error e => rw [hx] at h; cases h
  | ok x =>
    rw [hx] at h
    refine ⟨x, rfl, ?_⟩
    -- of all kinds only one is a global
    cases hk : x.kind <;> simp [bind, Except.bind, pure, Except.pure, hk] at h
    rfl

theorem value_of_instruction? {i : Instruction} (h : m.instruction? v = .ok (some i)) :
    ∃ x, m.value v = .ok x ∧ x.kind = .instruction i := by
  unfold instruction? at h
  cases hx : m.value v with
  | error e => rw [hx] at h; cases h
  | ok x =>
    rw [hx] at h
    refine ⟨x, rfl, ?_⟩
    -- of all kinds only one is an instruction
    cases hk : x.kind <;> simp [bind, Except.bind, pure, Except.pure, hk] at h
    rw [h]

/-- The operation behind a value is that of its instruction. -/
theorem operation?_value {i? : Option Instruction} (h : m.instruction? v = .ok i?) :
    m.operation? (.value v) = .ok (i?.map (·.op)) := by
  have hv : (NodeKey.value v).value? = some v := rfl
  rw [operation?, hv]
  simp [h, bind, Except.bind, pure, Except.pure]

theorem operation?_of_instruction? {i : Instruction} (h : m.instruction? v = .ok (some i)) :
    m.operation? (.value v) = .ok (some i.op) := operation?_value h

theorem index_lt_of_value {x : Value} (h : m.value v = .ok x) : v.index < m.values.size := by
  unfold value at h
  split at h
  · rename_i hx
    exact (Array.getElem?_eq_some_iff.1 hx).1
  · cases h

theorem index_lt_of_function {x : Function} (h : m.function f = .ok x) :
    f.index < m.functions.size := by
  unfold function at h
  split at h
  · rename_i hx
    exact (Array.getElem?_eq_some_iff.1 hx).1
  · cases h

/-- No value is both an argument and a global. -/
theorem not_isArgument_of_isGlobal (h : m.isGlobal v = .ok true) : ¬ m.IsArgument v := by
  intro hp
  obtain ⟨x, f, i, hx, hk⟩ := hp
  obtain ⟨y, hy, hg⟩ := value_of_isGlobal h
  rw [hx] at hy
  cases hy
  rw [hk] at hg
  cases hg

end Module

/-- A pointee that names a function leads to that one or to none. -/
theorem Pointee.leadsTo_iff {m : Module} {p : Pointee} {v : ValueId} {args : List ValueId}
    {f h : FunctionId} {x : Function} (hvalid : p.isValid = true)
    (hname : m.Names p.target (some f)) (hx : m.function f = .ok x) :
    p.LeadsTo m v args h ↔ h = f ∧ x.isDefined = true ∧ m.callFits x v args = .ok true := by
  constructor
  · rintro ⟨_, hname', x', hx', hdef, hfits⟩
    cases hname.inj hname'
    rw [hx] at hx'
    cases hx'
    exact ⟨rfl, hdef, hfits⟩
  · rintro ⟨rfl, hdef, hfits⟩
    exact ⟨hvalid, hname, x, hx, hdef, hfits⟩

namespace Setup

variable {e : Setup} {f : FunctionId} {v : ValueId}

theorem MayRun.isCallOf (h : e.MayRun v f) : ∃ callee args, e.program.IsCallOf v callee args := by
  cases h with
  | named hc _ _ _ => exact ⟨_, _, hc⟩
  | pointed hc _ _ _ _ => exact ⟨_, _, hc⟩

theorem Allocates.kind (h : e.Allocates f v) :
    ∃ x i, e.program.value v = .ok x ∧ x.kind = .instruction i := by
  obtain ⟨_, _, _, _, _, ⟨i, hi, _⟩, _⟩ := h
  obtain ⟨x, hx, hk⟩ := Module.value_of_instruction? hi
  exact ⟨x, i, hx, hk⟩

theorem Allocates.not_isArgument (h : e.Allocates f v) : ¬ e.program.IsArgument v := by
  intro hp
  obtain ⟨x, g, j, hx, hk⟩ := hp
  obtain ⟨y, i, hy, hi⟩ := h.kind
  rw [hx] at hy
  cases hy
  rw [hk] at hi
  cases hi

theorem Allocates.not_isGlobal (h : e.Allocates f v) : e.program.isGlobal v ≠ .ok true := by
  intro hg
  obtain ⟨x, hx, hk⟩ := Module.value_of_isGlobal hg
  obtain ⟨y, i, hy, hi⟩ := h.kind
  rw [hx] at hy
  cases hy
  rw [hk] at hi
  cases hi

/-! What a call does is read off in one way, from what it calls. -/

section Call

variable {callee : ValueId} {args : List ValueId} {h : FunctionId} {x : Function}

theorem exists_named_iff {P : Function → Prop} (hcall : e.program.IsCallOf v callee args)
    (hname : e.program.Names callee (some f)) (hx : e.program.function f = .ok x) :
    (∃ callee args f x, e.program.IsCallOf v callee args ∧ e.program.Names callee (some f) ∧
      e.program.function f = .ok x ∧ P x) ↔ P x := by
  constructor
  · rintro ⟨_, _, f', x', hcall', hname', hx', hp⟩
    obtain ⟨rfl, rfl⟩ := hcall.inj hcall'
    cases hname.inj hname'
    rw [hx] at hx'
    cases hx'
    exact hp
  · intro hp
    exact ⟨callee, args, f, x, hcall, hname, hx, hp⟩

theorem isAllocation_iff (hcall : e.program.IsCallOf v callee args)
    (hname : e.program.Names callee (some f)) (hx : e.program.function f = .ok x) :
    e.IsAllocation v ↔ e.settings.isAllocator x.name = true :=
  exists_named_iff (P := fun x => e.settings.isAllocator x.name = true) hcall hname hx

theorem gathers_iff (hcall : e.program.IsCallOf v callee args)
    (hname : e.program.Names callee (some f)) (hx : e.program.function f = .ok x) :
    e.Gathers v ↔ e.settings.gathered = some x.name :=
  exists_named_iff (P := fun x => e.settings.gathered = some x.name) hcall hname hx

/-- A call that names a function runs that one, if it has a body. -/
theorem mayRun_iff_of_some (hcall : e.program.IsCallOf v callee args)
    (hname : e.program.Names callee (some f)) (hx : e.program.function f = .ok x) :
    e.MayRun v h ↔ h = f ∧ x.isDefined = true := by
  constructor
  · intro hruns
    cases hruns with
    | named hcall' hname' hx' hdef =>
      obtain ⟨rfl, rfl⟩ := hcall.inj hcall'
      cases hname.inj hname'
      rw [hx] at hx'
      cases hx'
      exact ⟨rfl, hdef⟩
    | pointed hcall' hname' _ _ _ =>
      obtain ⟨rfl, rfl⟩ := hcall.inj hcall'
      cases hname.inj hname'
  · rintro ⟨rfl, hdef⟩
    exact .named hcall hname hx hdef

/-- A call that names no function allocates nothing. -/
theorem not_isAllocation_of_none (hcall : e.program.IsCallOf v callee args)
    (hname : e.program.Names callee none) : ¬ e.IsAllocation v := by
  rintro ⟨_, _, _, _, hcall', hname', _⟩
  obtain ⟨rfl, rfl⟩ := hcall.inj hcall'
  cases hname.inj hname'

/-- A call that names no function is not gathered. -/
theorem not_gathers_of_none (hcall : e.program.IsCallOf v callee args)
    (hname : e.program.Names callee none) : ¬ e.Gathers v := by
  rintro ⟨_, _, _, _, hcall', hname', _⟩
  obtain ⟨rfl, rfl⟩ := hcall.inj hcall'
  cases hname.inj hname'

/-- A call that names no function runs what the pointees lead to. -/
theorem mayRun_iff_of_none (hcall : e.program.IsCallOf v callee args)
    (hname : e.program.Names callee none) : e.MayRun v h ↔
      ∃ pointsTo, e.pointsTo? = some pointsTo ∧
        ∃ p ∈ pointsTo e.program callee, p.LeadsTo e.program v args h := by
  constructor
  · intro hruns
    cases hruns with
    | named hcall' hname' _ _ =>
      obtain ⟨rfl, rfl⟩ := hcall.inj hcall'
      cases hname.inj hname'
    | pointed hcall' _ hpoints hp hleads =>
      obtain ⟨rfl, rfl⟩ := hcall.inj hcall'
      exact ⟨_, hpoints, _, hp, hleads⟩
  · rintro ⟨pointsTo, hpoints, p, hp, hleads⟩
    exact .pointed hcall hname hpoints hp hleads

end Call

end Setup

end Sdg
