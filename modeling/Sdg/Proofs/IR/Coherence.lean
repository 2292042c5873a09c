import Sdg.Proofs.IR.Roles

/-!
# Coherent modules

What commands put together is coherent: whatever stands in a list says so itself, stands there once,
and everything that says that it stands in a list does. No command asks whether the operands that it
is given exist, as those of a phi may come later. They are the only ids that can be out of range in
the end.

Main results:

* `Module.Corresponds.isClosed` — a module whose roles and lists agree is closed if the ids that
  stand in operands are in range;
* `Module.coherent_of_assemble` — what commands put together is coherent, ids keep their meaning on
  the way, and loading finds no id that is out of range unless it was given as an operand.
-/

namespace Sdg

/-! ## Operands -/

/-- Whether what an operation reads and names is in range. -/
def Operation.Within (op : Operation) (m : Module) : Prop :=
  (∀ v ∈ op.operands, v.Within m) ∧ ∀ b ∈ op.namedBlocks, b.Within m

instance (op : Operation) (m : Module) : Decidable (op.Within m) :=
  inferInstanceAs (Decidable (_ ∧ _))

/-- Whether the operands of a value are in range. -/
def ValueKind.OperandsWithin (m : Module) : ValueKind → Prop
  | .expr e => e.base.Within m
  | .instruction i => i.op.Within m
  | _ => True

/-- Whether the operands that a command gives are in range. -/
def Command.OperandsWithin (m : Module) : Command → Prop
  | .expr e _ => e.base.Within m
  | .push _ op _ => op.Within m
  | .incoming _ v b => v.Within m ∧ b.Within m
  | _ => True

instance (c : Command) (m : Module) : Decidable (c.OperandsWithin m) :=
  match c with
  | .expr e _ => inferInstanceAs (Decidable (e.base.Within m))
  | .push _ op _ => inferInstanceAs (Decidable (op.Within m))
  | .incoming _ v b => inferInstanceAs (Decidable (v.Within m ∧ b.Within m))
  | .global .. | .constant _ | .aliasOf .. | .function .. | .functionValue _ | .param ..
  | .block .. => isTrue trivial

/-- Whether the id that a command answers is in range. -/
def Added.Within (m : Module) : Added → Prop
  | .value v => v.Within m
  | .function f => f.Within m
  | .block b => b.Within m
  | .nothing => True

/-- A phi whose operands are in range gets more of them. -/
theorem Operation.Within.incoming {M : Module} {l : List (ValueId × BlockId)} {v : ValueId}
    {b : BlockId} (h : (Operation.phi l).Within M) (hv : v.Within M) (hb : b.Within M) :
    (Operation.phi (l ++ [(v, b)])).Within M := by
  constructor
  · intro w hw
    rw [Operation.operands, List.map_append, List.mem_append] at hw
    rcases hw with hw | hw
    · exact h.1 w hw
    · rwa [List.mem_singleton.1 hw]
  · intro c hc
    rw [Operation.namedBlocks, List.map_append, List.mem_append] at hc
    rcases hc with hc | hc
    · exact h.2 c hc
    · rwa [List.mem_singleton.1 hc]

namespace Module

variable {m m' M : Module} {f : FunctionId} {b : BlockId} {v : ValueId}

/-- Whether the operands of all values of `m` are in range in `M`. -/
def OperandsWithin (m M : Module) : Prop := ∀ v x, m.value v = .ok x → x.kind.OperandsWithin M

theorem OperandsWithin.empty (name : String) : (Module.empty name).OperandsWithin M := by
  intro v x hx
  cases hx

theorem OperandsWithin.append {l : List Value} (h : m.OperandsWithin M)
    (hvalues : m'.values = m.values ++ l.toArray) (hl : ∀ x ∈ l, x.kind.OperandsWithin M) :
    m'.OperandsWithin M := by
  intro v x hx
  rcases (value_append hvalues).1 hx with hx | ⟨j, _, hx⟩
  · exact h v x hx
  · exact hl x (List.mem_of_getElem? hx)

theorem OperandsWithin.push {x : Value} (h : m.OperandsWithin M)
    (hvalues : m'.values = m.values.push x) (hx : x.kind.OperandsWithin M) : m'.OperandsWithin M :=
  h.append (hvalues.trans (Array.push_eq_append ..)) (List.forall_mem_singleton.2 hx)

/-- Operands come from commands. -/
theorem Adds.operandsWithin {c : Command} {a : Added} (ha : m.Adds c a m')
    (hc : c.OperandsWithin M) (h : m.OperandsWithin M) : m'.OperandsWithin M := by
  cases ha with
  | functionValue hx => exact h
  | param hx hv => exact h
  | constant ty hv | aliasOf name hx hv | global name ty hv => exact h.push rfl trivial
  | expr e ty hv => exact h.push rfl hc
  | function name returns isVariadic hf hv hlength hvs =>
    refine h.append rfl (List.forall_mem_cons.2 ⟨trivial, fun y hy => ?_⟩)
    -- an argument has no operands
    obtain ⟨j, hy⟩ := List.getElem?_of_mem hy
    rw [getElem?_argumentsFrom, Option.map_eq_some_iff] at hy
    obtain ⟨ty, _, rfl⟩ := hy
    exact trivial
  | block name hx hb => exact h
  | push op ty hy hv => exact h.push rfl hc
  | @incoming v b phi x f c l hx hk =>
    intro w y hy
    rw [value_set (m := m) hx rfl] at hy
    split at hy
    · cases hy
      have hphi := h phi x hx
      rw [hk] at hphi
      exact hphi.incoming hc.1 hc.2
    · exact h w y hy

/-! ## Tables -/

/-- Whether the tables have no more entries than ids can name. -/
def Addressable (m : Module) : Prop := ∀ t, m.size t ≤ UInt32.size

theorem Addressable.empty (name : String) : (Module.empty name).Addressable := by
  intro t
  cases t <;> exact Nat.zero_le _

/-- New entries get ids. -/
theorem Adds.addressable {c : Command} {a : Added} (ha : m.Adds c a m') (h : m.Addressable) :
    m'.Addressable := by
  intro t
  have ht := h t
  cases ha with
  | functionValue hx => exact ht
  | param hx hv => exact ht
  | @constant ty v hv | @expr e ty v hv | @aliasOf name w v x hx hv | @global name ty v hv
  | @push op ty b y v hy hv | @block name f x v hx hv =>
    -- the new entry has an id, so the table was not full
    have hlt := v.index_lt
    cases t <;> simp only [size, Array.size_push, Array.size_setIfInBounds] at ht ⊢ <;> omega
  | @function name params returns isVariadic f v vs hf hv hlength hvs =>
    have hlt := f.index_lt
    have hcount := add_length_le (n := m.values.size + 1) (hv ▸ v.index_lt) hvs
    cases t with
    | functions =>
      simp only [size, Array.size_push]
      omega
    | blocks => exact ht
    | values =>
      simp only [size, Array.size_append, List.size_toArray, List.length_cons, length_argumentsFrom]
      omega
  | incoming v b hx hk => cases t <;> simpa only [size, Array.size_setIfInBounds] using ht

section

variable {t : Table} {i : Nat}

theorem Addressable.exists_id (h : m.Addressable) (hi : i < m.size t) :
    ∃ j : EntryId t, j.index = i :=
  EntryId.exists_index (Nat.lt_of_lt_of_le hi (h t))

theorem Addressable.exists_function (h : m.Addressable) {x : Function}
    (hx : m.functions[i]? = some x) : ∃ f, m.function f = .ok x := by
  obtain ⟨f, rfl⟩ := h.exists_id (t := .functions) (Array.getElem?_eq_some_iff.1 hx).1
  exact ⟨f, function_eq_ok_iff_getElem?.2 hx⟩

theorem Addressable.exists_block (h : m.Addressable) {y : Block} (hy : m.blocks[i]? = some y) :
    ∃ b, m.block b = .ok y := by
  obtain ⟨b, rfl⟩ := h.exists_id (t := .blocks) (Array.getElem?_eq_some_iff.1 hy).1
  exact ⟨b, block_eq_ok_iff_getElem?.2 hy⟩

theorem Addressable.exists_value (h : m.Addressable) {x : Value} (hx : m.values[i]? = some x) :
    ∃ v, m.value v = .ok x := by
  obtain ⟨v, rfl⟩ := h.exists_id (t := .values) (Array.getElem?_eq_some_iff.1 hx).1
  exact ⟨v, value_eq_ok_iff_getElem?.2 hx⟩

end

/-! ## Closed modules -/

namespace Corresponds

/-- A parameter is an argument of its position. -/
theorem exists_argument (h : m.Corresponds) {x : Function} {j : Nat} (hx : m.function f = .ok x)
    (hv : x.params[j]? = some v) :
    ∃ position : UInt32, position.toNat = j ∧ m.HasRole v (.argument f position) := by
  have hlt := (List.getElem?_eq_some_iff.1 hv).1
  have hword : (UInt32.ofNat j).toNat = j :=
    UInt32.toNat_ofNat_of_lt' (Nat.lt_of_lt_of_le hlt (h.counted f x hx))
  exact ⟨_, hword, (h.arguments v f _).2 ⟨x, hx, by rwa [hword]⟩⟩

theorem function_within (h : m.Corresponds) {x : Function} (hx : m.function f = .ok x) :
    x.Within m where
  value := ((h.functions _ f).2 ⟨x, hx, rfl⟩).within
  params v hv := by
    obtain ⟨j, hj⟩ := List.getElem?_of_mem hv
    obtain ⟨position, _, hrole⟩ := h.exists_argument hx hj
    exact hrole.within
  blocks b hb := by
    obtain ⟨y, hy, _⟩ := (h.blocks b f).2 ⟨x, hx, hb⟩
    exact index_lt_of_block hy

theorem block_within (h : m.Corresponds) {y : Block} (hy : m.block b = .ok y) : y.Within m where
  function := by
    obtain ⟨x, hx, _⟩ := (h.blocks b _).1 ⟨y, hy, rfl⟩
    exact index_lt_of_function hx
  instructions v hv := ((h.instructions v _ b).2 ⟨y, hy, rfl, hv⟩).within

theorem value_within (h : m.Corresponds) {x : Value} (hx : m.value v = .ok x)
    (ho : x.kind.OperandsWithin m) : x.kind.Within m := by
  cases hk : x.kind with
  | function f =>
    obtain ⟨y, hy, _⟩ := (h.functions v f).1 ⟨x, hx, by rw [hk]; rfl⟩
    exact index_lt_of_function hy
  | argument f position =>
    obtain ⟨y, hy, _⟩ := (h.arguments v f position).1 ⟨x, hx, by rw [hk]; rfl⟩
    exact index_lt_of_function hy
  | global | constant => exact trivial
  | aliasOf w => exact h.aliases v w ⟨x, hx, by rw [hk]; rfl⟩
  | expr e =>
    rw [hk] at ho
    exact ho
  | instruction i =>
    rw [hk] at ho
    obtain ⟨y, hy, howner, _⟩ := (h.instructions v i.function i.block).1 ⟨x, hx, by rw [hk]; rfl⟩
    exact ⟨howner ▸ (h.block_within hy).function, index_lt_of_block hy, ho.1, ho.2⟩

/-- All ids are in range if those are that stand in operands. -/
theorem isClosed (h : m.Corresponds) (hids : m.Addressable) (ho : m.OperandsWithin m) :
    m.IsClosed := by
  refine isClosed_iff.2 fun p r hr => ?_
  -- references stand at places of tables, and what is known is known of ids
  have hvalue : ∀ {i : Nat} {x : Value} {k : ValueKind}, m.values[i]? = some x → x.kind = k →
      k.Within m := by
    rintro i x _ hx rfl
    obtain ⟨v, hv⟩ := hids.exists_value hx
    exact h.value_within hv (ho v x hv)
  cases hr with
  | functionValue hx =>
    obtain ⟨f, hf⟩ := hids.exists_function hx
    exact (h.function_within hf).value
  | parameter hx hv =>
    obtain ⟨f, hf⟩ := hids.exists_function hx
    exact (h.function_within hf).params _ (List.mem_of_getElem? hv)
  | body hx hb =>
    obtain ⟨f, hf⟩ := hids.exists_function hx
    exact (h.function_within hf).blocks _ (List.mem_of_getElem? hb)
  | owner hy =>
    obtain ⟨b, hb⟩ := hids.exists_block hy
    exact (h.block_within hb).function
  | member hy hv =>
    obtain ⟨b, hb⟩ := hids.exists_block hy
    exact (h.block_within hb).instructions _ (List.mem_of_getElem? hv)
  | global hv => exact ((h.globals _).2 (List.mem_of_getElem? hv)).within
  | addressOf hx hk | argumentOf hx hk | aliasee hx hk | castBase hx hk | offsetBase hx hk =>
    exact hvalue hx hk
  | place hx hk =>
    have hw : Instruction.Within _ m := hvalue hx hk
    exact ⟨hw.function, hw.block⟩
  | operand hx hk hv =>
    have hw : Instruction.Within _ m := hvalue hx hk
    exact hw.operands _ (List.mem_of_getElem? (Operation.getElem?_operands.2 hv))
  | target hx hk hc =>
    have hw : Instruction.Within _ m := hvalue hx hk
    exact hw.namedBlocks _ (List.mem_of_getElem? (Operation.getElem?_namedBlocks.2 hc))

end Corresponds

/-! ## Coherence -/

/-- Whether whatever stands in a list says so itself and stands there once, and whatever says that
it stands in a list does. -/
structure Coherent (m : Module) : Prop where
  addressable : m.Addressable
  /-- An instruction stands once in the block that it names, which is in the function that it names,
  and it stands in no other block. -/
  placed : ∀ v x i, m.value v = .ok x → x.kind = .instruction i →
    (∃ y, m.block i.block = .ok y ∧ y.function = i.function ∧ y.instructions.count v = 1) ∧
      ∀ b y, m.block b = .ok y → v ∈ y.instructions → b = i.block
  /-- Nothing but instructions stands in a block. -/
  members : ∀ b y, m.block b = .ok y → ∀ v ∈ y.instructions,
    ∃ x i, m.value v = .ok x ∧ x.kind = .instruction i
  /-- A block stands once in the function that it names, and in no other function. -/
  owned : ∀ b y, m.block b = .ok y →
    (∃ x, m.function y.function = .ok x ∧ x.blocks.count b = 1) ∧
      ∀ f x, m.function f = .ok x → b ∈ x.blocks → f = y.function
  /-- The blocks of a function are there. -/
  bodies : ∀ f x, m.function f = .ok x → ∀ b ∈ x.blocks, ∃ y, m.block b = .ok y
  /-- The value of a function is the one that is its address. -/
  addresses : ∀ f x, m.function f = .ok x →
    ∀ v, (∃ z, m.value v = .ok z ∧ z.kind = .function f) ↔ v = x.value
  /-- The parameters of a function are its arguments, in order. -/
  parameters : ∀ f x, m.function f = .ok x → ∀ j v, x.params[j]? = some v →
    ∃ z position, m.value v = .ok z ∧ z.kind = .argument f position ∧ position.toNat = j
  /-- The list of globals has all of them. -/
  globals : ∀ v, v ∈ m.globals ↔ ∃ x, m.value v = .ok x ∧ x.kind = .global
  /-- Globals are listed in the order of the table. -/
  sorted : m.globals.Pairwise (·.index < ·.index)

/-- Roles and lists that agree, and lists that have nothing twice, are coherent. -/
theorem Corresponds.coherent (h : m.Corresponds) (hids : m.Addressable) (ht : m.Tidy) :
    m.Coherent where
  addressable := hids
  placed v x i hx hk := by
    have hrole : m.HasRole v (.instruction i.function i.block) := ⟨x, hx, by rw [hk]; rfl⟩
    obtain ⟨y, hy, howner, hmem⟩ := (h.instructions v _ _).1 hrole
    refine ⟨⟨y, hy, howner, List.count_eq_one_of_mem (ht.distinct _ y hy) hmem⟩, ?_⟩
    intro b z hz hmem'
    -- if it stood in another block as well, it would have two roles
    have hsame := ((h.instructions v _ b).2 ⟨z, hz, rfl, hmem'⟩).unique hrole
    exact (Role.instruction.inj hsame).2
  members b y hy v hv := by
    obtain ⟨x, hx, hr⟩ := (h.instructions v _ b).2 ⟨y, hy, rfl, hv⟩
    obtain ⟨op, hk⟩ := ValueKind.exists_of_role?_eq_instruction hr
    exact ⟨x, _, hx, hk⟩
  owned b y hy := by
    obtain ⟨x, hx, hmem⟩ := (h.blocks b y.function).1 ⟨y, hy, rfl⟩
    refine ⟨⟨x, hx, List.count_eq_one_of_mem (ht.distinctBlocks _ x hx) hmem⟩, ?_⟩
    intro f z hz hmem'
    obtain ⟨y', hy', hf⟩ := (h.blocks b f).2 ⟨z, hz, hmem'⟩
    rw [hy] at hy'
    cases hy'
    exact hf.symm
  bodies := ht.inRange
  addresses f x hx v := by
    have hrole : m.HasRole v (.function f) ↔ ∃ z, m.value v = .ok z ∧ z.kind = .function f :=
      exists_congr fun z => and_congr_right fun _ => ValueKind.role?_eq_function
    rw [← hrole, h.functions]
    simp [hx, eq_comm]
  parameters f x hx j v hv := by
    obtain ⟨position, hword, z, hz, hr⟩ := h.exists_argument hx hv
    exact ⟨z, position, hz, ValueKind.role?_eq_argument.1 hr, hword⟩
  globals v := by
    rw [← h.globals]
    exact exists_congr fun z => and_congr_right fun _ => ValueKind.role?_eq_global
  sorted := h.sorted

/-! ## Commands -/

/-- The id that a command answers names an entry. -/
theorem Adds.within {c : Command} {a : Added} (ha : m.Adds c a m') (h : m.Corresponds) :
    a.Within m' := by
  cases ha with
  | functionValue hx => exact (h.function_within hx).value
  | param hx hv => exact (h.function_within hx).params _ (List.mem_of_getElem? hv)
  | constant ty hv | expr e ty hv | aliasOf name hx hv | global name ty hv | push op ty hy hv
  | function name returns isVariadic hv _ hlength hvs | block name hx hv =>
    -- the new id is the size of the table before
    refine Nat.lt_of_le_of_lt (Nat.le_of_eq hv) ?_
    simp [size]
  | incoming v b hx hk => exact trivial

/-- Commands are carried out one after another. -/
theorem exists_of_assemble_append {before after : List Command} {c : Command}
    (h : m.assemble (before ++ c :: after) = .ok m') :
    ∃ m₀ a m₁, m.assemble before = .ok m₀ ∧ c.run m₀ = .ok (a, m₁) ∧
      m₁.assemble after = .ok m' := by
  rw [assemble, List.foldlM_append] at h
  obtain ⟨m₀, hbefore, h⟩ := bind_eq_ok.1 h
  rw [List.foldlM_cons] at h
  obtain ⟨m₁, hc, hafter⟩ := bind_eq_ok.1 h
  cases hrun : c.run m₀ with
  | error e =>
    rw [hrun] at hc
    cases hc
  | ok p =>
    rw [hrun] at hc
    cases hc
    exact ⟨m₀, p.1, p.2, hbefore, hrun, hafter⟩

/-- **Coherence.** What commands put together is coherent. Each id that a command answers names an
entry, and the module grows from there on, so that the id names the same entry in the end. If the
ids that commands give as operands are in range in the end, then all ids are. -/
theorem coherent_of_assemble {name : String} {cs : List Command}
    (h : (Module.empty name).assemble cs = .ok m) :
    m.Coherent ∧
    (∀ before c after, cs = before ++ c :: after → ∃ m₀ a m₁,
      (Module.empty name).assemble before = .ok m₀ ∧ c.run m₀ = .ok (a, m₁) ∧
        a.Within m₁ ∧ m₁.Grows m) ∧
    ((∀ c ∈ cs, c.OperandsWithin m) → m.dangling? = none) := by
  have hcorr := corresponds_of_assemble h
  have hids : m.Addressable := assemble_keeps (fun _ _ _ _ _ h ha => ha.addressable h)
    (.empty name) h
  have htidy := (Assembled.assemble (.empty name) h).tidy
  refine ⟨hcorr.coherent hids htidy, ?_, fun hoperands => ?_⟩
  · rintro before c after rfl
    obtain ⟨m₀, a, m₁, hbefore, hrun, hafter⟩ := exists_of_assemble_append h
    -- what was put together before the command corresponds as well
    have hwithin := (run_adds hrun).within (corresponds_of_assemble hbefore)
    exact ⟨m₀, a, m₁, hbefore, hrun, hwithin, grows_of_assemble hafter⟩
  · have ho : m.OperandsWithin m := assemble_keeps (P := (·.OperandsWithin m))
      (fun c hc _ _ _ h ha => ha.operandsWithin (hoperands c hc) h) (.empty name) h
    exact dangling?_eq_none_iff.2 (hcorr.isClosed hids ho)

/-- Commands for a function that walks a list. The phi of its loop comes before both values that
flow into it. -/
def walkCommands : List Command :=
  [.global "list" (.ptr 0), .function "walk" [.ptr 0, .int 1] .void false, .aliasOf "visit" ⟨1⟩,
    .block ⟨0⟩ "entry", .push ⟨0⟩ (.branch ⟨1⟩) .void, .block ⟨0⟩ "loop",
    .push ⟨1⟩ (.phi []) (.ptr 0), .incoming ⟨6⟩ ⟨7⟩ ⟨0⟩, .expr (.cast ⟨0⟩) (.ptr 0),
    .push ⟨1⟩ (.load ⟨6⟩) (.ptr 0), .incoming ⟨6⟩ ⟨8⟩ ⟨1⟩,
    .push ⟨1⟩ (.condBranch ⟨3⟩ ⟨1⟩ ⟨2⟩) .void, .block ⟨0⟩ "done", .push ⟨2⟩ (.ret none) .void]

/-- The module that they make. -/
def walk : Module where
  name := "walk"
  functions := #[⟨"walk", ⟨1⟩, [⟨2⟩, ⟨3⟩], false, .void, [⟨0⟩, ⟨1⟩, ⟨2⟩]⟩]
  blocks := #[⟨⟨0⟩, some "entry", [⟨5⟩]⟩, ⟨⟨0⟩, some "loop", [⟨6⟩, ⟨8⟩, ⟨9⟩]⟩,
    ⟨⟨0⟩, some "done", [⟨10⟩]⟩]
  values := #[⟨.global, .ptr 0, some "list"⟩, ⟨.function ⟨0⟩, .ptr 0, some "walk"⟩,
    ⟨.argument ⟨0⟩ 0, .ptr 0, none⟩, ⟨.argument ⟨0⟩ 1, .int 1, none⟩,
    ⟨.aliasOf ⟨1⟩, .ptr 0, some "visit"⟩, ⟨.instruction ⟨⟨0⟩, ⟨0⟩, .branch ⟨1⟩⟩, .void, none⟩,
    ⟨.instruction ⟨⟨0⟩, ⟨1⟩, .phi [(⟨7⟩, ⟨0⟩), (⟨8⟩, ⟨1⟩)]⟩, .ptr 0, none⟩,
    ⟨.expr (.cast ⟨0⟩), .ptr 0, none⟩, ⟨.instruction ⟨⟨0⟩, ⟨1⟩, .load ⟨6⟩⟩, .ptr 0, none⟩,
    ⟨.instruction ⟨⟨0⟩, ⟨1⟩, .condBranch ⟨3⟩ ⟨1⟩ ⟨2⟩⟩, .void, none⟩,
    ⟨.instruction ⟨⟨0⟩, ⟨2⟩, .ret none⟩, .void, none⟩]
  globals := [⟨0⟩]

/-- The phi is named by the id that it was given, though it has grown since. -/
theorem coherent_of_assemble_walk :
    (Module.empty "walk").assemble walkCommands = .ok walk ∧ walk.Coherent ∧
      walk.dangling? = none ∧ ∃ m₀ a m₁, (Module.empty "walk").assemble (walkCommands.take 6) =
        .ok m₀ ∧ Command.run m₀ (.push ⟨1⟩ (.phi []) (.ptr 0)) = .ok (a, m₁) ∧ a.Within m₁ ∧
          m₁.Grows walk := by
  have hrun : (Module.empty "walk").assemble walkCommands = .ok walk := rfl
  obtain ⟨hcoherent, hids, hclosed⟩ := coherent_of_assemble hrun
  exact ⟨hrun, hcoherent, hclosed (by decide +kernel), hids _ _ (walkCommands.drop 7) rfl⟩

end Module

end Sdg
