import Sdg.Proofs.Closed
import Sdg.Proofs.IR.Nesting
import Sdg.Proofs.Json.RoundTrip

/-!
# Modules that were written and read again

Main results:

* `Module.load_render_iff` — which modules are read back from their text.
* `Module.load_render` — a module that was loaded is, and so is a closed one that nests within the
  limit.
-/

namespace Sdg

variable {t : Table}

/-! ## The parts of a module -/

@[simp] theorem EntryId.ofJson?_toJson (i : EntryId t) : ofJson? i.toJson = some i := by
  simp [ofJson?, toJson, index]

@[simp] theorem list?_idsToJson (is : List (EntryId t)) :
    (idsToJson is).list? EntryId.ofJson? = some is :=
  Json.list?_map fun i _ => EntryId.ofJson?_toJson i

@[simp] theorem optionalField?_id (i? : Option (EntryId t)) :
    Json.optionalField? EntryId.ofJson? (some (.ofOption EntryId.toJson i?)) = some i? :=
  Json.optionalField?_ofOption EntryId.ofJson?_toJson nofun i?

@[simp] theorem optionalField?_text (s? : Option String) :
    Json.optionalField? Json.text? (some (.ofOption .text s?)) = some s? :=
  Json.optionalField?_ofOption Json.text?_text nofun s?

@[simp] theorem list?_incoming (incoming : List (ValueId × BlockId)) :
    (Json.arr (incoming.map fun e => .arr [e.1.toJson, e.2.toJson])).list? incoming?
      = some incoming :=
  Json.list?_map fun e _ => by simp [incoming?]

@[simp] theorem Operation.ofJson?_toJson (op : Operation) : ofJson? op.toJson = some op := by
  cases op <;> simp [ofJson?, toJson, Json.fields?_record, Json.isNoPayload]

@[simp] theorem ConstExpr.ofJson?_toJson (e : ConstExpr) : ofJson? e.toJson = some e := by
  cases e <;> simp [ofJson?, toJson, Json.fields?_record]

@[simp] theorem Instruction.ofJson?_toJson (i : Instruction) : ofJson? i.toJson = some i := by
  simp [ofJson?, toJson, Json.fields?_record]

@[simp] theorem ValueKind.ofJson?_toJson (k : ValueKind) : ofJson? k.toJson = some k := by
  cases k <;> simp [ofJson?, toJson, Json.fields?_record, Json.isNoPayload]

theorem Value.ofJson?_toJson {x : Value} (h : x.ty.nesting ≤ tableTypeRoom) :
    ofJson? x.toJson = some x := by
  simp [ofJson?, toJson, Json.fields?_record, Ty.ofJson?_toJson h]

@[simp] theorem Block.ofJson?_toJson (b : Block) : ofJson? b.toJson = some b := by
  simp [ofJson?, toJson, Json.fields?_record]

/-- The type of a value that was read fits, in whatever form it stood there. -/
theorem Value.nesting_le {j : Json} {x : Value} (h : ofJson? j = some x) :
    x.ty.nesting ≤ tableTypeRoom := by
  unfold ofJson? at h
  split at h
  case h_2 => cases h
  case h_1 =>
  simp only [Option.bind_eq_bind, Option.bind_eq_some_iff, Option.pure_def,
    Option.some.injEq] at h
  obtain ⟨_, -, ty, hty, _, -, rfl⟩ := h
  exact Ty.nesting_le hty

theorem Function.ofJson?_toJson {f : Function} (h : f.returns.nesting ≤ tableTypeRoom) :
    ofJson? f.toJson = some f := by
  simp [ofJson?, toJson, Json.fields?_record, Ty.ofJson?_toJson h]

/-- What a function that was read returns has a type that fits. -/
theorem Function.nesting_le {j : Json} {f : Function} (h : ofJson? j = some f) :
    f.returns.nesting ≤ tableTypeRoom := by
  unfold ofJson? at h
  split at h
  case h_2 => cases h
  case h_1 =>
  simp only [Option.bind_eq_bind, Option.bind_eq_some_iff, Option.pure_def,
    Option.some.injEq] at h
  obtain ⟨_, -, _, -, _, -, _, -, ty, hty, _, -, rfl⟩ := h
  exact Ty.nesting_le hty

/-! ## Modules -/

namespace Module

variable {m : Module} {j : Json}

/-- Whether all types in the tables of a module fit between the containers around them and the
limit. -/
structure TypesFit (m : Module) : Prop where
  returns : ∀ f ∈ m.functions, f.returns.nesting ≤ tableTypeRoom
  types : ∀ x ∈ m.values, x.ty.nesting ≤ tableTypeRoom

theorem ofJson?_toJson (h : m.TypesFit) : ofJson? m.toJson = some m := by
  have hf : (Json.arr (m.functions.toList.map Function.toJson)).list? Function.ofJson?
      = some m.functions.toList :=
    Json.list?_map fun f hf => Function.ofJson?_toJson (h.returns f (by simpa using hf))
  have hb : (Json.arr (m.blocks.toList.map Block.toJson)).list? Block.ofJson?
      = some m.blocks.toList := Json.list?_map fun b _ => Block.ofJson?_toJson b
  have hv : (Json.arr (m.values.toList.map Value.toJson)).list? Value.ofJson?
      = some m.values.toList :=
    Json.list?_map fun x hx => Value.ofJson?_toJson (h.types x (by simpa using hx))
  simp [ofJson?, toJson, Json.fields?_record, hf, hb, hv]

theorem TypesFit.of_ofJson? (h : ofJson? j = some m) : m.TypesFit := by
  unfold ofJson? at h
  split at h
  case h_2 => cases h
  case h_1 =>
  simp only [Option.bind_eq_bind, Option.bind_eq_some_iff, Option.pure_def,
    Option.some.injEq] at h
  obtain ⟨_, -, fs, hfs, _, -, xs, hxs, _, -, rfl⟩ := h
  refine ⟨fun f hf => ?_, fun x hx => ?_⟩
  · obtain ⟨i, hi⟩ := Json.exists_of_mem_list? hfs (by simpa using hf)
    exact Function.nesting_le hi
  · obtain ⟨i, hi⟩ := Json.exists_of_mem_list? hxs (by simpa using hx)
    exact Value.nesting_le hi

/-- Around a type in an entry of a table three containers are open. -/
theorem nesting_le_of_table {ty : Ty} {entry table : Json}
    (hty : ty.toJson.nesting < entry.nesting) (hentry : entry.nesting < table.nesting)
    (htable : table.nesting < m.toJson.nesting) (h : m.toJson.nesting ≤ nestingLimit) :
    ty.nesting ≤ tableTypeRoom := by
  rw [Ty.nesting_toJson] at hty
  unfold nestingLimit at h
  unfold tableTypeRoom nestingLimit
  omega

theorem TypesFit.of_nesting (h : m.toJson.nesting ≤ nestingLimit) : m.TypesFit where
  returns f hf := by
    have hty : f.returns.toJson.nesting < f.toJson.nesting :=
      Json.nesting_lt_of_mem_record (k := "return_type") (by simp)
    have hentry : f.toJson.nesting < (Json.arr (m.functions.toList.map Function.toJson)).nesting :=
      Json.nesting_lt_of_mem_arr (List.mem_map_of_mem (by simpa using hf))
    have htable : (Json.arr (m.functions.toList.map Function.toJson)).nesting < m.toJson.nesting :=
      Json.nesting_lt_of_mem_record (k := "functions") (by simp)
    exact nesting_le_of_table hty hentry htable h
  types x hx := by
    have hty : x.ty.toJson.nesting < x.toJson.nesting :=
      Json.nesting_lt_of_mem_record (k := "ty") (by simp)
    have hentry : x.toJson.nesting < (Json.arr (m.values.toList.map Value.toJson)).nesting :=
      Json.nesting_lt_of_mem_arr (List.mem_map_of_mem (by simpa using hx))
    have htable : (Json.arr (m.values.toList.map Value.toJson)).nesting < m.toJson.nesting :=
      Json.nesting_lt_of_mem_record (k := "values") (by simp)
    exact nesting_le_of_table hty hentry htable h

theorem load_eq_ok_iff {text : String} :
    load text = .ok m ↔ ∃ j, Json.parse? text = some j ∧ ofJson? j = some m ∧ m.IsClosed := by
  unfold load fromJson
  cases hj : Json.parse? text with
  | none => simp
  | some j =>
    cases hm : ofJson? j with
    | none => simp [hm]
    | some m' =>
      simp only [Option.some.injEq, exists_eq_left', hm, ← dangling?_eq_none_iff]
      cases hd : m'.dangling? with
      | none => grind
      | some r => grind

/-- The modules that are read back from their text. -/
theorem load_render_iff : load m.toJson.render = .ok m ↔ m.IsClosed ∧ m.TypesFit := by
  rw [load_eq_ok_iff, Json.parse?_render]
  constructor
  · rintro ⟨j, -, hj, hm⟩
    exact ⟨hm, .of_ofJson? hj⟩
  · rintro ⟨hm, hfit⟩
    exact ⟨_, rfl, ofJson?_toJson hfit, hm⟩

/-- A module that was loaded is read back from its text, in whatever form it was written before, and
so is a closed module whose text nests within the limit. -/
theorem load_render : (∀ text m, load text = .ok m → load m.toJson.render = .ok m) ∧
    ∀ m : Module, m.IsClosed → m.toJson.nesting ≤ nestingLimit →
      load m.toJson.render = .ok m := by
  refine ⟨fun text m h => ?_, fun m hm h => load_render_iff.2 ⟨hm, .of_nesting h⟩⟩
  obtain ⟨j, -, hj, hm⟩ := load_eq_ok_iff.1 h
  exact load_render_iff.2 ⟨hm, .of_ofJson? hj⟩

/-- A module of one value, which is a global. -/
def lone : Module := ⟨"m", #[], #[], #[⟨.global, .void, none⟩], [⟨0⟩]⟩

/-- A text of the module with an escape, arrays for records, objects for bare names and a field that
nothing reads. -/
def loneText : String :=
  "\x7b\"globals\" : [0], \"name\" : \"\\u006d\", \"functions\" : [], \"blocks\" : [],
    \"values\" : [[\x7b\"Global\" : null\x7d, \x7b\"Void\" : null\x7d, null]], \"more\" : [[]]\x7d"

/-- The type of vectors of vectors, `n` deep. -/
def vectors : Nat → Ty
  | 0 => .void
  | n + 1 => .vec (vectors n) 4

/-- A module of one global of such a type. -/
def nested (n : Nat) : Module := ⟨"n", #[], #[], #[⟨.global, vectors n, none⟩], [⟨0⟩]⟩

/-- The text is read, and what was read is written so that it is read again. A module whose text
opens as many containers at once as may be open is read back as well. -/
theorem load_render_lone :
    load loneText = .ok lone ∧ load lone.toJson.render = .ok lone ∧
      (nested 62).IsClosed ∧ (nested 62).toJson.nesting = nestingLimit ∧
      load (nested 62).toJson.render = .ok (nested 62) := by
  have hload : load loneText = .ok lone := by decide +kernel
  have hclosed : (nested 62).IsClosed := dangling?_eq_none_iff.1 (by decide +kernel)
  have hnesting : (nested 62).toJson.nesting = nestingLimit := by decide +kernel
  exact ⟨hload, load_render.1 _ _ hload, hclosed, hnesting,
    load_render.2 _ hclosed (Nat.le_of_eq hnesting)⟩

end Module

end Sdg
