import Sdg.Proofs.IR.Dangling
import Sdg.Proofs.IR.Growth

/-!
# Roles and lists

A module says most things twice: an instruction names the block that lists it, a block the function
that lists it, and functions, their arguments and globals are values that say so. The role of a
value is what it says of itself. That the module says the same both times is a correspondence
between roles and lists, and each command keeps it as it adds to both.

Main results:

* `Module.Adds.corresponds` — a command keeps the correspondence;
* `Module.corresponds_of_assemble` — it holds of what commands put together.
-/

namespace Sdg

/-! ## Roles -/

/-- What a value says of its part in the module. -/
inductive Role where
  | function (f : FunctionId)
  | argument (f : FunctionId) (position : UInt32)
  | global
  | aliasOf (v : ValueId)
  | instruction (f : FunctionId) (b : BlockId)
  deriving DecidableEq

/-- The role of a value of this kind. Constants have none. -/
def ValueKind.role? : ValueKind → Option Role
  | .function f => some (.function f)
  | .argument f position => some (.argument f position)
  | .global => some .global
  | .constant => none
  | .aliasOf v => some (.aliasOf v)
  | .expr _ => none
  | .instruction i => some (.instruction i.function i.block)

namespace ValueKind

variable {k : ValueKind}

theorem role?_eq_function {f : FunctionId} : k.role? = some (.function f) ↔ k = .function f := by
  cases k <;> simp [role?]

theorem role?_eq_argument {f : FunctionId} {position : UInt32} :
    k.role? = some (.argument f position) ↔ k = .argument f position := by
  cases k <;> simp [role?]

theorem role?_eq_global : k.role? = some .global ↔ k = .global := by
  cases k <;> simp [role?]

theorem exists_of_role?_eq_instruction {f : FunctionId} {b : BlockId}
    (h : k.role? = some (.instruction f b)) : ∃ op, k = .instruction ⟨f, b, op⟩ := by
  cases k with
  | instruction i =>
    cases h
    exact ⟨i.op, rfl⟩
  | _ => cases h

end ValueKind

namespace Module

variable {m m' : Module} {f g : FunctionId} {b c : BlockId} {v w : ValueId} {ρ : Role}

/-- Whether a value has a role. -/
def HasRole (m : Module) (v : ValueId) (ρ : Role) : Prop :=
  ∃ x, m.value v = .ok x ∧ x.kind.role? = some ρ

theorem HasRole.within {ρ : Role} (h : m.HasRole v ρ) : v.Within m :=
  have ⟨_, hx, _⟩ := h
  index_lt_of_value hx

/-- A value has one role. -/
theorem HasRole.unique {ρ ρ' : Role} (h : m.HasRole v ρ) (h' : m.HasRole v ρ') : ρ = ρ' := by
  obtain ⟨x, hx, hρ⟩ := h
  obtain ⟨x', hx', hρ'⟩ := h'
  rw [hx] at hx'
  cases hx'
  exact Option.some.inj (hρ.symm.trans hρ')

/-- Whether what values and blocks say of themselves is what the lists of the module say of them. -/
structure Corresponds (m : Module) : Prop where
  instructions : ∀ v f b, m.HasRole v (.instruction f b) ↔
    ∃ y, m.block b = .ok y ∧ y.function = f ∧ v ∈ y.instructions
  blocks : ∀ b f, (∃ y, m.block b = .ok y ∧ y.function = f) ↔
    ∃ x, m.function f = .ok x ∧ b ∈ x.blocks
  functions : ∀ v f, m.HasRole v (.function f) ↔ ∃ x, m.function f = .ok x ∧ x.value = v
  arguments : ∀ v f j, m.HasRole v (.argument f j) ↔
    ∃ x, m.function f = .ok x ∧ x.params[j.toNat]? = some v
  globals : ∀ v, m.HasRole v .global ↔ v ∈ m.globals
  aliases : ∀ v w, m.HasRole v (.aliasOf w) → w.Within m
  /-- Globals are listed in the order of the table. -/
  sorted : m.globals.Pairwise (·.index < ·.index)
  /-- Positions of parameters are words. -/
  counted : ∀ f x, m.function f = .ok x → x.params.length ≤ UInt32.size

theorem Corresponds.empty (name : String) : (Module.empty name).Corresponds := by
  have hfunction : ∀ f x, ¬ (Module.empty name).function f = .ok x := nofun
  have hblock : ∀ b y, ¬ (Module.empty name).block b = .ok y := nofun
  have hrole : ∀ v ρ, ¬ (Module.empty name).HasRole v ρ := by
    rintro v ρ ⟨x, hx, _⟩
    cases hx
  have hglobals : (Module.empty name).globals = [] := rfl
  constructor <;> simp [hfunction, hblock, hrole, hglobals]

/-- Roles in a table of values with more of them at its end. -/
theorem hasRole_append {l : List Value} (h : m'.values = m.values ++ l.toArray) :
    m'.HasRole v ρ ↔ m.HasRole v ρ ∨
      ∃ j x, v.index = m.values.size + j ∧ l[j]? = some x ∧ x.kind.role? = some ρ := by
  unfold HasRole
  simp only [value_append h, or_and_right, exists_or]
  refine or_congr Iff.rfl ?_
  constructor
  · rintro ⟨x, ⟨j, hj, hx⟩, hr⟩
    exact ⟨j, x, hj, hx, hr⟩
  · rintro ⟨j, x, hj, hx, hr⟩
    exact ⟨x, ⟨j, hj, hx⟩, hr⟩

/-- Roles in a table of values with one more. -/
theorem hasRole_push {x : Value} (h : m'.values = m.values.push x) (hv : v.index = m.values.size) :
    m'.HasRole w ρ ↔ m.HasRole w ρ ∨ (w = v ∧ x.kind.role? = some ρ) := by
  rw [hasRole_append (h.trans (Array.push_eq_append ..))]
  refine or_congr Iff.rfl ?_
  constructor
  · rintro ⟨j, y, hj, hy, hr⟩
    obtain ⟨rfl, rfl⟩ := Operation.eq_of_getElem?_singleton hy
    exact ⟨EntryId.ext_index (by omega), hr⟩
  · rintro ⟨rfl, hr⟩
    exact ⟨0, x, hv, rfl, hr⟩

/-! ## Commands -/

/-- A value comes at the end of the table that is a global, another name or nothing to the rest of
the module. -/
theorem Corresponds.pushValue {x : Value} (h : m.Corresponds) (hg : m.Grows m')
    (hv : v.index = m.values.size) (hvalues : m'.values = m.values.push x)
    (hrole : ∀ ρ, x.kind.role? = some ρ → ρ = .global ∨ ∃ w, ρ = .aliasOf w ∧ w.Within m)
    (hglobals : m'.globals = if x.kind.role? = some .global then m.globals ++ [v] else m.globals)
    (hfunctions : m'.function = m.function) (hblocks : m'.block = m.block) : m'.Corresponds := by
  -- roles in functions and blocks are those of before
  have hsame : ∀ w ρ, ρ ≠ .global → (∀ u, ρ ≠ .aliasOf u) →
      (m'.HasRole w ρ ↔ m.HasRole w ρ) := by
    intro w ρ hne hna
    rw [hasRole_push hvalues hv, or_iff_left]
    rintro ⟨_, hr⟩
    rcases hrole ρ hr with rfl | ⟨u, rfl, _⟩
    · exact hne rfl
    · exact hna u rfl
  constructor
  case instructions =>
    intro w f b
    rw [hsame w (.instruction f b) nofun nofun, hblocks, h.instructions]
  case blocks =>
    rw [hfunctions, hblocks]
    exact h.blocks
  case functions =>
    intro w f
    rw [hsame w (.function f) nofun nofun, hfunctions, h.functions]
  case arguments =>
    intro w f j
    rw [hsame w (.argument f j) nofun nofun, hfunctions, h.arguments]
  case globals =>
    intro w
    rw [hasRole_push hvalues hv, hglobals, h.globals]
    split
    · -- the value is a global just in case it is entered among the globals
      rename_i hr
      simp [hr]
    · rename_i hr
      simp [hr]
  case aliases =>
    intro w u hw
    rw [hasRole_push hvalues hv] at hw
    rcases hw with hw | ⟨_, hr⟩
    · exact hg.within (h.aliases w u hw)
    · rcases hrole _ hr with he | ⟨u', he, hu⟩
      · cases he
      · cases he
        exact hg.within hu
  case sorted =>
    rw [hglobals]
    split
    · -- all globals of before are in the table of before
      refine List.pairwise_append.2 ⟨h.sorted, List.pairwise_singleton _ _, fun w hw u hu => ?_⟩
      obtain ⟨y, hy, _⟩ := (h.globals w).2 hw
      have hlt := index_lt_of_value hy
      rw [List.mem_singleton.1 hu]
      omega
    · exact h.sorted
  case counted =>
    rw [hfunctions]
    exact h.counted

/-- If no role but that of instructions changes, and functions change in their blocks only, then it
is enough to see to instructions and blocks. -/
theorem Corresponds.place (h : m.Corresponds) (hg : m.Grows m') (hglobals : m'.globals = m.globals)
    (hrole : ∀ w ρ, (∀ f b, ρ ≠ .instruction f b) → (m'.HasRole w ρ ↔ m.HasRole w ρ))
    (hfunction : ∀ (P : Function → Prop) f, (∀ x bs, P { x with blocks := bs } ↔ P x) →
      ((∃ x, m'.function f = .ok x ∧ P x) ↔ ∃ x, m.function f = .ok x ∧ P x))
    (hinstructions : ∀ w f b, m'.HasRole w (.instruction f b) ↔
      ∃ y, m'.block b = .ok y ∧ y.function = f ∧ w ∈ y.instructions)
    (hblocks : ∀ b f, (∃ y, m'.block b = .ok y ∧ y.function = f) ↔
      ∃ x, m'.function f = .ok x ∧ b ∈ x.blocks) : m'.Corresponds where
  instructions := hinstructions
  blocks := hblocks
  functions w f := by
    rw [hrole w (.function f) nofun, h.functions, hfunction (·.value = w) f fun _ _ => Iff.rfl]
  arguments w f j := by
    rw [hrole w (.argument f j) nofun, h.arguments,
      hfunction (·.params[j.toNat]? = some w) f fun _ _ => Iff.rfl]
  globals w := by rw [hrole w .global nofun, hglobals, h.globals]
  aliases w u hw := hg.within (h.aliases w u ((hrole w (.aliasOf u) nofun).1 hw))
  sorted := by
    rw [hglobals]
    exact h.sorted
  counted f y hy := by
    obtain ⟨x, hx, hparams⟩ :=
      (hfunction (·.params = y.params) f fun _ _ => Iff.rfl).1 ⟨y, hy, rfl⟩
    rw [← hparams]
    exact h.counted f x hx

/-- More flows into a phi. -/
theorem Corresponds.setPhi {x : Value} {more : List (ValueId × BlockId)}
    {incoming : List (ValueId × BlockId)} (h : m.Corresponds) (hg : m.Grows m')
    (hx : m.value v = .ok x) (hk : x.kind = .instruction ⟨f, b, .phi incoming⟩)
    (hvalues : m'.values = m.values.setIfInBounds v.index
      { x with kind := .instruction ⟨f, b, .phi more⟩ })
    (hglobals : m'.globals = m.globals)
    (hfunctions : m'.function = m.function) (hblocks : m'.block = m.block) : m'.Corresponds := by
  have hrole : ∀ w ρ, m'.HasRole w ρ ↔ m.HasRole w ρ := by
    intro w ρ
    -- the phi stays where it stands, so it has the role that it had
    unfold HasRole
    simp only [value_set hx hvalues]
    by_cases hw : w = v
    · subst hw
      simp [hx, hk, ValueKind.role?]
    · simp [hw]
  refine h.place hg hglobals (fun w ρ _ => hrole w ρ) (fun P g _ => by rw [hfunctions]) ?_ ?_
  · intro w g c
    rw [hrole, hblocks, h.instructions]
  · rw [hfunctions, hblocks]
    exact h.blocks

/-- An instruction comes at the end of the block that it names. -/
theorem Corresponds.pushInstruction {x : Value} {y : Block} (h : m.Corresponds) (hg : m.Grows m')
    (hy : m.block b = .ok y) (hv : v.index = m.values.size) (hvalues : m'.values = m.values.push x)
    (hrole : x.kind.role? = some (.instruction y.function b))
    (hblocks : m'.blocks = m.blocks.setIfInBounds b.index
      { y with instructions := y.instructions ++ [v] })
    (hglobals : m'.globals = m.globals) (hfunctions : m'.function = m.function) :
    m'.Corresponds := by
  have hother : ∀ w ρ, (∀ f b, ρ ≠ .instruction f b) → (m'.HasRole w ρ ↔ m.HasRole w ρ) := by
    intro w ρ hne
    rw [hasRole_push hvalues hv, or_iff_left]
    rintro ⟨_, hr⟩
    rw [hrole] at hr
    cases hr
    exact hne _ _ rfl
  refine h.place hg hglobals hother (fun P g _ => by rw [hfunctions]) ?_ ?_
  · intro w g c
    -- the new role and the new place are those of `v` in `b`
    rw [hasRole_push hvalues hv, hrole, h.instructions]
    simp only [block_set hy hblocks]
    by_cases hc : c = b
    · subst hc
      simp [hy, ← and_or_left, or_comm, and_comm]
    · simp [hc, Ne.symm hc]
  · intro c g
    simp only [block_set hy hblocks, hfunctions, ← h.blocks]
    by_cases hc : c = b
    · subst hc
      simp [hy]
    · simp [hc]

/-- A new block comes at the end of its function. -/
theorem Corresponds.pushBlock {x : Function} {z : Block} (h : m.Corresponds) (hg : m.Grows m')
    (hx : m.function f = .ok x) (hb : b.index = m.blocks.size) (howner : z.function = f)
    (hnil : z.instructions = []) (hblocks : m'.blocks = m.blocks.push z)
    (hfunctions : m'.functions = m.functions.setIfInBounds f.index
      { x with blocks := x.blocks ++ [b] })
    (hglobals : m'.globals = m.globals) (hvalues : m'.value = m.value) : m'.Corresponds := by
  -- no value is touched, so roles stay
  have hrole : ∀ w ρ, m'.HasRole w ρ ↔ m.HasRole w ρ := fun w ρ => by simp only [HasRole, hvalues]
  have hfresh : ∀ y, ¬ m.block b = .ok y := by
    intro y hy
    have hlt := index_lt_of_block hy
    omega
  have hold : ∀ c, c ≠ b → c.index ≠ m.blocks.size := fun c hc he =>
    hc (EntryId.ext_index (by omega))
  refine h.place hg hglobals (fun w ρ _ => hrole w ρ) (fun P g hP => ?_) ?_ ?_
  · simp only [function_set hx hfunctions]
    by_cases hgf : g = f
    · subst hgf
      simp [hx, hP]
    · simp [hgf]
  · intro w g c
    -- nothing stands in the new block, and nothing says that it does
    rw [hrole, h.instructions]
    simp only [block_push hblocks]
    by_cases hc : c = b
    · subst hc
      simp [hb, hnil, hfresh]
    · simp [hold c hc]
  · intro c g
    simp only [block_push hblocks, function_set hx hfunctions]
    by_cases hc : c = b
    · subst hc
      by_cases hgf : g = f
      · simp [hgf, hb, howner]
      · -- no other function has a block that is new
        have hno := (h.blocks c g).not.1 fun ⟨y, hy, _⟩ => hfresh y hy
        simpa [hgf, hb, howner, Ne.symm hgf] using hno
    · by_cases hgf : g = f
      · subst hgf
        simp [hold c hc, hc, h.blocks, hx]
      · simp [hold c hc, hgf, h.blocks]

/-- Ids are words, so no more of them follow each other than there are words. -/
theorem add_length_le {vs : List ValueId} {n : Nat} (hn : n ≤ UInt32.size)
    (h : ∀ j w, vs[j]? = some w → w.index = n + j) : n + vs.length ≤ UInt32.size := by
  cases hlength : vs.length with
  | zero => exact hn
  | succ k =>
    have hindex := h k _ (List.getElem?_eq_getElem (by omega))
    have hword := (vs[k]).index_lt
    omega

/-- The roles that come with a function: its address and its arguments. -/
theorem hasRole_function {x : Function} {address : Value} {tys : List Ty}
    (hv : x.value.index = m.values.size) (hlength : x.params.length = tys.length)
    (hparams : ∀ j w, x.params[j]? = some w → w.index = m.values.size + 1 + j)
    (haddress : address.kind = .function f)
    (hvalues : m'.values = m.values ++ (address :: argumentsFrom f 0 tys).toArray) :
    m'.HasRole w ρ ↔ m.HasRole w ρ ∨ (w = x.value ∧ ρ = .function f) ∨
      ∃ j : UInt32, x.params[j.toNat]? = some w ∧ ρ = .argument f j := by
  rw [hasRole_append hvalues]
  refine or_congr Iff.rfl ?_
  constructor
  · rintro ⟨j, y, hj, hy, hr⟩
    cases j with
    | zero =>
      -- the first new value is the address
      cases hy
      rw [haddress] at hr
      cases hr
      exact .inl ⟨EntryId.ext_index (by omega), rfl⟩
    | succ k =>
      rw [List.getElem?_cons_succ, getElem?_argumentsFrom, Option.map_eq_some_iff] at hy
      obtain ⟨ty, hty, rfl⟩ := hy
      cases hr
      have hk : k < x.params.length := by
        rw [hlength]
        exact (List.getElem?_eq_some_iff.1 hty).1
      have hcount := add_length_le (n := m.values.size + 1) (hv ▸ x.value.index_lt) hparams
      have hword : (UInt32.ofNat (0 + k)).toNat = k := by
        rw [Nat.zero_add]
        exact UInt32.toNat_ofNat_of_lt' (by omega)
      refine .inr ⟨_, ?_, rfl⟩
      -- the id of the parameter is the one of the value at its place
      have hparam := hparams k _ (List.getElem?_eq_getElem hk)
      rw [hword, List.getElem?_eq_getElem hk]
      exact congrArg some (EntryId.ext_index (by omega))
  · rintro (⟨rfl, rfl⟩ | ⟨j, hj, rfl⟩)
    · exact ⟨0, address, hv, rfl, by rw [haddress]; rfl⟩
    · have hlt := (List.getElem?_eq_some_iff.1 hj).1
      rw [hlength] at hlt
      refine ⟨j.toNat + 1, ⟨.argument f j, tys[j.toNat], none⟩, ?_, ?_, rfl⟩
      · rw [hparams _ _ hj]
        omega
      · simp [getElem?_argumentsFrom, hlt]

/-- A new function comes with the values of its address and of its arguments. -/
theorem Corresponds.pushFunction {x : Function} {address : Value} {tys : List Ty}
    (h : m.Corresponds) (hg : m.Grows m') (hf : f.index = m.functions.size)
    (hv : x.value.index = m.values.size) (hlength : x.params.length = tys.length)
    (hparams : ∀ j w, x.params[j]? = some w → w.index = m.values.size + 1 + j)
    (hnil : x.blocks = []) (haddress : address.kind = .function f)
    (hfunctions : m'.functions = m.functions.push x)
    (hvalues : m'.values = m.values ++ (address :: argumentsFrom f 0 tys).toArray)
    (hglobals : m'.globals = m.globals) (hblocks : m'.block = m.block) : m'.Corresponds := by
  -- the new roles are those of the address and of the arguments
  have hrole : ∀ w ρ, m'.HasRole w ρ ↔ _ := fun w ρ =>
    hasRole_function (w := w) (ρ := ρ) hv hlength hparams haddress hvalues
  have hfresh : ∀ y, ¬ m.function f = .ok y := by
    intro y hy
    have hlt := index_lt_of_function hy
    omega
  -- whatever is said of functions is said of those of before or of the new one
  have hfunction : ∀ g y, m'.function g = .ok y ↔ m.function g = .ok y ∨ (g = f ∧ y = x) := by
    intro g y
    rw [function_push hfunctions]
    by_cases hgf : g = f
    · subst hgf
      simp [hf, hfresh, eq_comm]
    · have hne : g.index ≠ m.functions.size := fun he => hgf (EntryId.ext_index (by omega))
      simp [hne, hgf]
  constructor
  case instructions =>
    intro w g c
    rw [hrole, hblocks, ← h.instructions]
    simp
  case blocks =>
    intro c g
    rw [hblocks, h.blocks]
    simp [hfunction, or_and_right, exists_or, hnil]
  case functions =>
    intro w g
    rw [hrole, h.functions]
    simp only [hfunction, or_and_right, exists_or]
    refine or_congr Iff.rfl ?_
    simp [and_comm, eq_comm]
  case arguments =>
    intro w g j
    rw [hrole, h.arguments]
    simp only [hfunction, or_and_right, exists_or]
    refine or_congr Iff.rfl ?_
    simp [and_comm]
  case globals =>
    intro w
    rw [hrole, hglobals, ← h.globals]
    simp
  case aliases =>
    intro w u hw
    rw [hrole] at hw
    refine hg.within (h.aliases w u ?_)
    simpa using hw
  case sorted =>
    rw [hglobals]
    exact h.sorted
  case counted =>
    intro g y hy
    rcases (hfunction g y).1 hy with hy | ⟨_, rfl⟩
    · exact h.counted g y hy
    · -- each parameter has a name among the values, so a word counts them
      have hcount := add_length_le (n := m.values.size + 1) (hv ▸ y.value.index_lt) hparams
      omega

/-- **Correspondence.** A command keeps roles and lists in agreement. -/
theorem Adds.corresponds {c : Command} {a : Added} (ha : m.Adds c a m') (h : m.Corresponds) :
    m'.Corresponds := by
  have hg := ha.grows
  cases ha with
  | functionValue hx => exact h
  | param hx hv => exact h
  | constant ty hv | expr e ty hv => exact h.pushValue hg hv rfl nofun rfl rfl rfl
  | aliasOf name hx hv =>
    refine h.pushValue hg hv rfl (fun ρ hr => ?_) rfl rfl rfl
    cases hr
    exact .inr ⟨_, rfl, index_lt_of_value hx⟩
  | global name ty hv =>
    refine h.pushValue hg hv rfl (fun ρ hr => ?_) rfl rfl rfl
    cases hr
    exact .inl rfl
  | function name returns isVariadic hf hv hlength hvs =>
    exact h.pushFunction hg hf hv hlength hvs rfl rfl rfl rfl rfl rfl
  | block name hx hb => exact h.pushBlock hg hx hb rfl rfl rfl rfl rfl rfl
  | push op ty hy hv => exact h.pushInstruction hg hy hv rfl rfl rfl rfl rfl
  | incoming v b hx hk => exact h.setPhi hg hx hk rfl rfl rfl rfl

/-- What commands put together corresponds. -/
theorem corresponds_of_assemble {name : String} {cs : List Command}
    (h : (Module.empty name).assemble cs = .ok m) : m.Corresponds :=
  assemble_keeps (P := Corresponds) (fun _ _ _ _ _ h ha => ha.corresponds h) (.empty name) h

end Module

end Sdg
