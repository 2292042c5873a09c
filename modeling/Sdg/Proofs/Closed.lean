import Sdg.IR.Reference

/-!
# Closed modules

A query answers unless one of its parts does not. A module is closed if each id that stands in it
names an entry, so in such a module every query at an id that stands there answers. An id that names
an entry is in range, and all that stands in an entry of a closed module is.
-/

namespace Sdg

section

variable {α β ε : Type} {work : α → Except ε β}

/-- Work in two parts ends well if both do. -/
theorem bind_eq_ok {x : Except ε α} {r : β} :
    (x >>= work) = .ok r ↔ ∃ a, x = .ok a ∧ work a = .ok r := by
  cases x <;> simp [bind, Except.bind]

/-- What holds of the outcome at each element holds of the outcome at a list. -/
theorem of_mapM {key : β → α} {P : β → Prop} (h : ∀ a e, work a = .ok e → key e = a ∧ P e)
    {l : List α} {r : List β} (hr : l.mapM work = .ok r) : r.map key = l ∧ ∀ e ∈ r, P e := by
  induction l generalizing r with
  | nil =>
    cases hr
    exact ⟨rfl, fun _ he => absurd he List.not_mem_nil⟩
  | cons a l ih =>
    rw [List.mapM_cons, bind_eq_ok] at hr
    obtain ⟨b, hb, hr⟩ := hr
    obtain ⟨bs, hbs, hr⟩ := bind_eq_ok.1 hr
    cases hr
    obtain ⟨hk, hp⟩ := ih hbs
    obtain ⟨hkb, hpb⟩ := h a b hb
    exact ⟨by rw [List.map_cons, hkb, hk], List.forall_mem_cons.2 ⟨hpb, hp⟩⟩

theorem exists_mapM {l : List α} (h : ∀ a ∈ l, ∃ b, work a = .ok b) :
    ∃ r, l.mapM work = .ok r := by
  induction l with
  | nil => exact ⟨[], rfl⟩
  | cons a l ih =>
    obtain ⟨b, hb⟩ := h a List.mem_cons_self
    obtain ⟨bs, hbs⟩ := ih fun c hc => h c (List.mem_cons_of_mem _ hc)
    exact ⟨b :: bs, by rw [List.mapM_cons, hb, hbs]; rfl⟩

theorem exists_mem_of_mapM {l : List α} {r : List β} (hr : l.mapM work = .ok r) {a : α}
    (ha : a ∈ l) : ∃ b ∈ r, work a = .ok b := by
  induction l generalizing r with
  | nil => exact absurd ha List.not_mem_nil
  | cons c l ih =>
    rw [List.mapM_cons, bind_eq_ok] at hr
    obtain ⟨b, hb, hr⟩ := hr
    obtain ⟨bs, hbs, hr⟩ := bind_eq_ok.1 hr
    cases hr
    rcases List.mem_cons.1 ha with rfl | ha
    · exact ⟨b, List.mem_cons_self, hb⟩
    · obtain ⟨d, hd, had⟩ := ih hbs ha
      exact ⟨d, List.mem_cons_of_mem _ hd, had⟩

/-- A test that is answered everywhere picks out what passes it. -/
theorem filterM_eq {p : α → Except ε Bool} {q : α → Bool} {l : List α}
    (h : ∀ a ∈ l, p a = .ok (q a)) : l.filterM p = .ok (l.filter q) := by
  -- the elements that were picked out so far are carried along
  have hloop : ∀ l acc, (∀ a ∈ l, p a = .ok (q a)) →
      List.filterAuxM p l acc = .ok ((l.filter q).reverse ++ acc) := by
    intro l
    induction l with
    | nil => exact fun acc _ => rfl
    | cons a l ih =>
      intro acc h
      rw [List.filterAuxM, h a List.mem_cons_self]
      show List.filterAuxM p l (cond (q a) (a :: acc) acc) = _
      rw [ih _ fun c hc => h c (List.mem_cons_of_mem _ hc)]
      cases hq : q a <;> simp [hq]
  rw [List.filterM, hloop l [] h]
  simp [bind, Except.bind, pure, Except.pure]

end

namespace Module

/-- Whether all ids that stand in the module are in range. -/
def IsClosed (m : Module) : Prop := ∀ x ∈ m.references, x.inRange m = true

variable {m : Module} {f : FunctionId} {b : BlockId} {v : ValueId}

/-- No reference is reported exactly if the module is closed. -/
theorem dangling?_eq_none_iff : m.dangling? = none ↔ m.IsClosed := by
  unfold dangling? IsClosed
  rw [List.find?_eq_none]
  simp

theorem exists_function (h : f.index < m.functions.size) : ∃ x, m.function f = .ok x := by
  rw [function, Array.getElem?_eq_getElem h]
  exact ⟨_, rfl⟩

/-- A name leads to a function that is there. -/
theorem exists_function_of_named {name : String} (h : m.functionNamed? name = some f) :
    ∃ x, m.function f = .ok x := by
  obtain ⟨i, hi, hf⟩ := Option.bind_eq_some_iff.1 h
  obtain ⟨hlt, _⟩ := Array.findIdx?_eq_some_iff_getElem.1 hi
  exact exists_function (by rw [EntryId.index_of_ofNat? hf]; exact hlt)

theorem exists_block (h : b.index < m.blocks.size) : ∃ x, m.block b = .ok x := by
  rw [block, Array.getElem?_eq_getElem h]
  exact ⟨_, rfl⟩

theorem exists_value (h : v.index < m.values.size) : ∃ x, m.value v = .ok x := by
  rw [value, Array.getElem?_eq_getElem h]
  exact ⟨_, rfl⟩

theorem getElem?_of_function {x : Function} (h : m.function f = .ok x) :
    m.functions[f.index]? = some x := by
  unfold function at h
  split at h
  · cases h
    assumption
  · cases h

theorem getElem?_of_block {x : Block} (h : m.block b = .ok x) : m.blocks[b.index]? = some x := by
  unfold block at h
  split at h
  · cases h
    assumption
  · cases h

theorem getElem?_of_value {x : Value} (h : m.value v = .ok x) : m.values[v.index]? = some x := by
  unfold value at h
  split at h
  · cases h
    assumption
  · cases h

/-- The entry at a position of a table, as the listing of references meets it. -/
theorem mem_zipIdx {α : Type} {a : Array α} {i : Nat} {x : α} (h : a[i]? = some x) :
    (x, i) ∈ a.toList.zipIdx := by
  rw [List.mem_zipIdx_iff_getElem?, Array.getElem?_toList]
  exact h

theorem mem_references_of_function {x : Function} (hx : m.function f = .ok x) {r : Reference}
    (hr : r ∈ x.references f.index) : r ∈ m.references := by
  simp only [references, List.mem_append, List.mem_flatMap]
  exact .inl (.inl (.inl ⟨_, mem_zipIdx (getElem?_of_function hx), hr⟩))

theorem mem_references_of_block {x : Block} (hx : m.block b = .ok x) {r : Reference}
    (hr : r ∈ x.references b.index) : r ∈ m.references := by
  simp only [references, List.mem_append, List.mem_flatMap]
  exact .inl (.inl (.inr ⟨_, mem_zipIdx (getElem?_of_block hx), hr⟩))

theorem mem_references_of_value {x : Value} (hx : m.value v = .ok x) {r : Reference}
    (hr : r ∈ x.kind.references v.index) : r ∈ m.references := by
  simp only [references, List.mem_append, List.mem_flatMap]
  exact .inr ⟨_, mem_zipIdx (getElem?_of_value hx), hr⟩

theorem exists_instruction? {x : Value} (hx : m.value v = .ok x) :
    ∃ o, m.instruction? v = .ok o := by
  simp only [instruction?, hx, bind, Except.bind]
  split <;> exact ⟨_, rfl⟩

end Module

/-! ## Ids in range -/

/-- The number of entries of a table. -/
def Module.size (m : Module) : Table → Nat
  | .functions => m.functions.size
  | .blocks => m.blocks.size
  | .values => m.values.size

/-- Whether an id names an entry. -/
def EntryId.Within {t : Table} (i : EntryId t) (m : Module) : Prop := i.index < m.size t

instance {t : Table} (i : EntryId t) (m : Module) : Decidable (i.Within m) :=
  inferInstanceAs (Decidable (_ < _))

structure Function.Within (x : Function) (m : Module) : Prop where
  value : x.value.Within m
  params : ∀ v ∈ x.params, v.Within m
  blocks : ∀ b ∈ x.blocks, b.Within m

structure Block.Within (x : Block) (m : Module) : Prop where
  function : x.function.Within m
  instructions : ∀ v ∈ x.instructions, v.Within m

structure Instruction.Within (i : Instruction) (m : Module) : Prop where
  function : i.function.Within m
  block : i.block.Within m
  operands : ∀ v ∈ i.op.operands, v.Within m
  namedBlocks : ∀ b ∈ i.op.namedBlocks, b.Within m

def ValueKind.Within (m : Module) : ValueKind → Prop
  | .function f | .argument f _ => f.Within m
  | .global | .constant => True
  | .aliasOf v => v.Within m
  | .expr e => e.base.Within m
  | .instruction i => i.Within m

namespace Module.IsClosed

variable {m : Module} {f : FunctionId} {b : BlockId} {v : ValueId} (hm : m.IsClosed)

include hm

theorem within_of_function {x : Function} (hx : m.function f = .ok x) : x.Within m := by
  have h := fun r hr => hm r (mem_references_of_function hx hr)
  refine ⟨?_, fun v hv => ?_, fun b hb => ?_⟩
  · exact of_decide_eq_true (h (.functionValue f.index x.value) (by simp [Function.references]))
  · exact of_decide_eq_true (h (.parameter x.name v) (by simp [Function.references, hv]))
  · exact of_decide_eq_true (h (.body x.name b) (by simp [Function.references, hb]))

theorem within_of_block {x : Block} (hx : m.block b = .ok x) : x.Within m := by
  have h := fun r hr => hm r (mem_references_of_block hx hr)
  refine ⟨?_, fun v hv => ?_⟩
  · exact of_decide_eq_true (h (.owner b.index x.function) (by simp [Block.references]))
  · exact of_decide_eq_true (h (.member b.index v) (by simp [Block.references, hv]))

theorem within_of_value {x : Value} (hx : m.value v = .ok x) : x.kind.Within m := by
  have h := fun r hr => hm r (mem_references_of_value hx hr)
  cases hk : x.kind with
  | function f =>
    have hf : f.Within m :=
      of_decide_eq_true (h (.valueFunction v.index f) (by simp [hk, ValueKind.references]))
    exact hf
  | argument f position =>
    have hf : f.Within m :=
      of_decide_eq_true (h (.valueFunction v.index f) (by simp [hk, ValueKind.references]))
    exact hf
  | global => exact trivial
  | constant => exact trivial
  | aliasOf w =>
    have hw : w.Within m :=
      of_decide_eq_true (h (.aliasee v.index w) (by simp [hk, ValueKind.references]))
    exact hw
  | expr e =>
    have hw : e.base.Within m :=
      of_decide_eq_true (h (.base v.index e.base) (by simp [hk, ValueKind.references]))
    exact hw
  | instruction i =>
    have hplace := Bool.and_eq_true_iff.1
      (h (.place v.index i.function i.block) (by simp [hk, ValueKind.references]))
    refine ⟨of_decide_eq_true hplace.1, of_decide_eq_true hplace.2, fun w hw => ?_, fun b hb => ?_⟩
    · exact of_decide_eq_true (h (.operand v.index w) (by simp [hk, ValueKind.references, hw]))
    · exact of_decide_eq_true (h (.target v.index b) (by simp [hk, ValueKind.references, hb]))

theorem within_of_globals (hv : v ∈ m.globals) : v.Within m :=
  of_decide_eq_true (hm (.global v) (by simp [references, hv]))

/-- The blocks of a function are there. -/
theorem block_of_mem {x : Function} (hx : m.function f = .ok x) (hb : b ∈ x.blocks) :
    ∃ y, m.block b = .ok y :=
  exists_block ((hm.within_of_function hx).blocks b hb)

/-- The values that stand in a block are there. -/
theorem value_of_mem {y : Block} (hy : m.block b = .ok y) (hv : v ∈ y.instructions) :
    ∃ x, m.value v = .ok x :=
  exists_value ((hm.within_of_block hy).instructions v hv)

/-- Where control goes from a block of the module can be told. -/
theorem exists_successors {y : Block} (hy : m.block b = .ok y) : ∃ l, m.successors b = .ok l := by
  have hlast : ∃ o, m.terminator? b = .ok o := by
    rw [terminator?, hy]
    cases hl : y.instructions.getLast? with
    | none => exact ⟨none, by simp [bind, Except.bind, hl, pure, Except.pure]⟩
    | some v =>
      obtain ⟨x, hx⟩ := hm.value_of_mem hy (List.mem_of_getLast? hl)
      obtain ⟨o, ho⟩ := exists_instruction? hx
      exact ⟨o, by simp [bind, Except.bind, hl, ho]⟩
  obtain ⟨o, ho⟩ := hlast
  rw [successors, ho]
  cases o <;> exact ⟨_, rfl⟩

end Module.IsClosed

end Sdg
