import Mathlib.Data.List.Lex
import Sdg.Proofs.IR.RoundTrip

/-!
# The first id that is out of range

Loading asks of every id that stands in a module whether it is in range, and reports the first one
that is not. Here it is said by itself where ids stand: one rule for each kind of entry and each
part of an operation, with a position that orders them. Positions are compared number by number:
functions come before blocks, globals and values, entries of one table in their order, and within an
entry what it is comes before the lists that it holds. An instruction has its place first, then all
values that it reads, then all blocks that it names.

Main results:

* `Module.mem_located_iff` — the references that are asked for, in the order of their positions, are
  those that stand somewhere;
* `Module.load_exact` — a module is loaded exactly if all ids that stand in it are in range, and the
  first one that is not is reported otherwise.
-/

namespace Sdg

/-! ## Where ids stand -/

namespace Operation

/-- Whether an operation reads a value, and as which one in order. -/
inductive ReadsAt : Operation → Nat → ValueId → Prop where
  | callee (v : ValueId) (args : List ValueId) : ReadsAt (.call v args) 0 v
  | argument (callee : ValueId) {args : List ValueId} {k : Nat} {v : ValueId}
      (h : args[k]? = some v) : ReadsAt (.call callee args) (k + 1) v
  | returned (v : ValueId) : ReadsAt (.ret (some v)) 0 v
  | loadAddress (v : ValueId) : ReadsAt (.load v) 0 v
  | stored (v address : ValueId) : ReadsAt (.store v address) 0 v
  | storeAddress (value v : ValueId) : ReadsAt (.store value v) 1 v
  | base (v : ValueId) (indices : List ValueId) (inBounds : Bool) :
      ReadsAt (.getElementPtr v indices inBounds) 0 v
  | offset (base : ValueId) {indices : List ValueId} (inBounds : Bool) {k : Nat} {v : ValueId}
      (h : indices[k]? = some v) : ReadsAt (.getElementPtr base indices inBounds) (k + 1) v
  | incoming {incoming : List (ValueId × BlockId)} {k : Nat} {v : ValueId} {b : BlockId}
      (h : incoming[k]? = some (v, b)) : ReadsAt (.phi incoming) k v
  | cast (v : ValueId) : ReadsAt (.cast v) 0 v
  | condition (v : ValueId) (ifTrue ifFalse : BlockId) : ReadsAt (.condBranch v ifTrue ifFalse) 0 v
  | switched (v : ValueId) (default : BlockId) (cases : List BlockId) :
      ReadsAt (.switch v default cases) 0 v
  | operand (opcode : String) {operands : List ValueId} {k : Nat} {v : ValueId}
      (h : operands[k]? = some v) : ReadsAt (.other opcode operands) k v

/-- Whether an operation names a block, and as which one in order. -/
inductive NamesAt : Operation → Nat → BlockId → Prop where
  | incoming {incoming : List (ValueId × BlockId)} {k : Nat} {v : ValueId} {b : BlockId}
      (h : incoming[k]? = some (v, b)) : NamesAt (.phi incoming) k b
  | target (b : BlockId) : NamesAt (.branch b) 0 b
  | ifTrue (condition : ValueId) (b ifFalse : BlockId) :
      NamesAt (.condBranch condition b ifFalse) 0 b
  | ifFalse (condition : ValueId) (ifTrue b : BlockId) :
      NamesAt (.condBranch condition ifTrue b) 1 b
  | default (condition : ValueId) (b : BlockId) (cases : List BlockId) :
      NamesAt (.switch condition b cases) 0 b
  | case (condition : ValueId) (default : BlockId) {cases : List BlockId} {k : Nat} {b : BlockId}
      (h : cases[k]? = some b) : NamesAt (.switch condition default cases) (k + 1) b

variable {op : Operation} {k : Nat} {v : ValueId} {b : BlockId}

theorem eq_of_getElem?_singleton {α : Type} {a c : α} (h : [a][k]? = some c) : k = 0 ∧ a = c := by
  cases k with
  | zero => exact ⟨rfl, Option.some_inj.1 h⟩
  | succ k => cases h

/-- The list of operands has every value that is read, in its place. -/
theorem getElem?_operands : op.operands[k]? = some v ↔ op.ReadsAt k v := by
  constructor
  · intro h
    -- the list of an operation is spelt out, so its place tells which operand it is
    cases op with
    | call callee args =>
      cases k with
      | zero =>
        cases h
        exact .callee _ _
      | succ k => exact .argument _ h
    | ret value =>
      cases value with
      | none => cases h
      | some w =>
        obtain ⟨rfl, rfl⟩ := eq_of_getElem?_singleton h
        exact .returned _
    | load address =>
      obtain ⟨rfl, rfl⟩ := eq_of_getElem?_singleton h
      exact .loadAddress _
    | store value address =>
      match k, h with
      | 0, rfl => exact .stored _ _
      | 1, rfl => exact .storeAddress _ _
    | getElementPtr base indices inBounds =>
      cases k with
      | zero =>
        cases h
        exact .base _ _ _
      | succ k => exact .offset _ _ h
    | phi incoming =>
      rw [operands, List.getElem?_map, Option.map_eq_some_iff] at h
      obtain ⟨⟨w, b⟩, h, rfl⟩ := h
      exact .incoming h
    | cast operand =>
      obtain ⟨rfl, rfl⟩ := eq_of_getElem?_singleton h
      exact .cast _
    | branch target => cases h
    | condBranch condition ifTrue ifFalse =>
      obtain ⟨rfl, rfl⟩ := eq_of_getElem?_singleton h
      exact .condition _ _ _
    | switch condition default cases =>
      obtain ⟨rfl, rfl⟩ := eq_of_getElem?_singleton h
      exact .switched _ _ _
    | unreachable => cases h
    | other opcode operands => exact .operand _ h
  · intro h
    cases h with
    | argument _ h | offset _ _ h | operand _ h => exact h
    | incoming h => simp [operands, h]
    | _ => rfl

/-- The list of named blocks has every block that is named, in its place. -/
theorem getElem?_namedBlocks : op.namedBlocks[k]? = some b ↔ op.NamesAt k b := by
  constructor
  · intro h
    cases op with
    | phi incoming =>
      rw [namedBlocks, List.getElem?_map, Option.map_eq_some_iff] at h
      obtain ⟨⟨v, c⟩, h, rfl⟩ := h
      exact .incoming h
    | branch target =>
      obtain ⟨rfl, rfl⟩ := eq_of_getElem?_singleton h
      exact .target _
    | condBranch condition ifTrue ifFalse =>
      match k, h with
      | 0, rfl => exact .ifTrue _ _ _
      | 1, rfl => exact .ifFalse _ _ _
    | switch condition default cases =>
      cases k with
      | zero =>
        cases h
        exact .default _ _ _
      | succ k => exact .case _ _ h
    | _ => cases h
  · intro h
    cases h with
    | case _ _ h => exact h
    | incoming h => simp [namedBlocks, h]
    | _ => rfl

end Operation

/-- Whether a reference stands in a module, and at which position. -/
inductive Module.StandsAt (m : Module) : List Nat → Reference → Prop where
  | functionValue {i : Nat} {x : Function} (hx : m.functions[i]? = some x) :
      StandsAt m [0, i, 0] (.functionValue i x.value)
  | parameter {i j : Nat} {x : Function} {v : ValueId} (hx : m.functions[i]? = some x)
      (hv : x.params[j]? = some v) : StandsAt m [0, i, 1, j] (.parameter x.name v)
  | body {i j : Nat} {x : Function} {b : BlockId} (hx : m.functions[i]? = some x)
      (hb : x.blocks[j]? = some b) : StandsAt m [0, i, 2, j] (.body x.name b)
  | owner {i : Nat} {y : Block} (hy : m.blocks[i]? = some y) :
      StandsAt m [1, i, 0] (.owner i y.function)
  | member {i j : Nat} {y : Block} {v : ValueId} (hy : m.blocks[i]? = some y)
      (hv : y.instructions[j]? = some v) : StandsAt m [1, i, 1, j] (.member i v)
  | global {j : Nat} {v : ValueId} (hv : m.globals[j]? = some v) : StandsAt m [2, j] (.global v)
  | addressOf {i : Nat} {x : Value} {f : FunctionId} (hx : m.values[i]? = some x)
      (hk : x.kind = .function f) : StandsAt m [3, i, 0] (.valueFunction i f)
  | argumentOf {i : Nat} {x : Value} {f : FunctionId} {position : UInt32}
      (hx : m.values[i]? = some x) (hk : x.kind = .argument f position) :
      StandsAt m [3, i, 0] (.valueFunction i f)
  | aliasee {i : Nat} {x : Value} {v : ValueId} (hx : m.values[i]? = some x)
      (hk : x.kind = .aliasOf v) : StandsAt m [3, i, 0] (.aliasee i v)
  | castBase {i : Nat} {x : Value} {v : ValueId} (hx : m.values[i]? = some x)
      (hk : x.kind = .expr (.cast v)) : StandsAt m [3, i, 0] (.base i v)
  | offsetBase {i : Nat} {x : Value} {v : ValueId} {inBounds : Bool} (hx : m.values[i]? = some x)
      (hk : x.kind = .expr (.getElementPtr v inBounds)) : StandsAt m [3, i, 0] (.base i v)
  | place {i : Nat} {x : Value} {f : FunctionId} {b : BlockId} {op : Operation}
      (hx : m.values[i]? = some x) (hk : x.kind = .instruction ⟨f, b, op⟩) :
      StandsAt m [3, i, 0] (.place i f b)
  | operand {i j : Nat} {x : Value} {f : FunctionId} {b : BlockId} {op : Operation} {v : ValueId}
      (hx : m.values[i]? = some x) (hk : x.kind = .instruction ⟨f, b, op⟩)
      (hv : op.ReadsAt j v) : StandsAt m [3, i, 1, j] (.operand i v)
  | target {i j : Nat} {x : Value} {f : FunctionId} {b c : BlockId} {op : Operation}
      (hx : m.values[i]? = some x) (hk : x.kind = .instruction ⟨f, b, op⟩)
      (hc : op.NamesAt j c) : StandsAt m [3, i, 2, j] (.target i c)

/-- Whether the ids of a reference are in range. -/
def Reference.Within (m : Module) : Reference → Prop
  | functionValue _ v | parameter _ v | member _ v | global v | aliasee _ v | base _ v
  | operand _ v => v.Within m
  | body _ b | target _ b => b.Within m
  | owner _ f | valueFunction _ f => f.Within m
  | place _ f b => f.Within m ∧ b.Within m

theorem Reference.inRange_iff {m : Module} {r : Reference} :
    r.inRange m = true ↔ r.Within m := by
  cases r with
  | place i f b =>
    exact Bool.and_eq_true_iff.trans (and_congr decide_eq_true_iff decide_eq_true_iff)
  | _ => exact decide_eq_true_iff

/-- The ids of a reference as a report shows them. -/
def Reference.shown : Reference → String
  | functionValue _ v | parameter _ v | member _ v | global v | aliasee _ v | base _ v
  | operand _ v => toString v
  | body _ b | target _ b => toString b
  | owner _ f | valueFunction _ f => toString f
  | place _ f b => toString f ++ " or " ++ toString b

/-- A report ends with the ids that it is about. -/
theorem Reference.exists_message_eq (r : Reference) : ∃ text, r.message = text ++ r.shown := by
  cases r with
  | place i f b =>
    refine ⟨s!"%{i} is placed in missing ", ?_⟩
    rw [shown, ← String.append_assoc, ← String.append_assoc]
    rfl
  | _ => exact ⟨_, rfl⟩

/-- Whether a reference is the first one that is out of range. -/
def Module.FirstDangling (m : Module) (r : Reference) : Prop :=
  ∃ p, m.StandsAt p r ∧ ¬ r.Within m ∧ ∀ p' r', m.StandsAt p' r' → p' < p → r'.Within m

/-! ## Lists with positions -/

section

variable {α : Type}

/-- Lists with positions, one after another, as one such list. -/
def sections (ls : List (List (List Nat × α))) : List (List Nat × α) :=
  ls.zipIdx.flatMap fun (l, i) => l.map fun (p, a) => (i :: p, a)

/-- Whether the positions of a list grow. -/
def Ascending (l : List (List Nat × α)) : Prop := l.Pairwise fun a b => a.1 < b.1

theorem mem_sections {ls : List (List (List Nat × α))} {p : List Nat} {a : α} :
    (p, a) ∈ sections ls ↔ ∃ i q l, p = i :: q ∧ ls[i]? = some l ∧ (q, a) ∈ l := by
  simp only [sections, List.mem_flatMap, List.mem_map, Prod.exists, List.mem_zipIdx_iff_getElem?,
    Prod.mk.injEq]
  constructor
  · rintro ⟨l, i, hl, q, c, hq, rfl, rfl⟩
    exact ⟨i, q, l, rfl, hl, hq⟩
  · rintro ⟨i, q, l, rfl, hl, hq⟩
    exact ⟨l, i, hl, q, a, hq, rfl, rfl⟩

theorem map_snd_sections (ls : List (List (List Nat × α))) :
    (sections ls).map Prod.snd = ls.flatMap (·.map Prod.snd) := by
  have hentry : ∀ e : List (List Nat × α) × Nat,
      (e.1.map fun a => (e.2 :: a.1, a.2)).map Prod.snd = e.1.map Prod.snd := fun e => by
    rw [List.map_map]
    rfl
  calc (sections ls).map Prod.snd
      = ls.zipIdx.flatMap fun e => (e.1.map fun a => (e.2 :: a.1, a.2)).map Prod.snd :=
        List.map_flatMap
    _ = ls.zipIdx.flatMap fun e => e.1.map Prod.snd := by simp only [hentry]
    _ = (ls.zipIdx.map Prod.fst).flatMap (·.map Prod.snd) := by rw [List.flatMap_map]
    _ = ls.flatMap (·.map Prod.snd) := by rw [List.zipIdx_map_fst]

theorem ascending_sections {ls : List (List (List Nat × α))} (h : ∀ l ∈ ls, Ascending l) :
    Ascending (sections ls) := by
  refine List.pairwise_flatMap.2 ⟨?_, ?_⟩
  · rintro ⟨l, i⟩ hl
    rw [List.pairwise_map]
    have hmem : l ∈ ls := (List.mem_zipIdx_iff_getElem?.1 hl |> List.mem_of_getElem?)
    exact (h l hmem).imp fun hlt => List.cons_lt_cons_iff.2 (.inr ⟨rfl, hlt⟩)
  · refine List.pairwise_iff_getElem.2 fun i j hi hj hij => ?_
    simp only [List.getElem_zipIdx, List.mem_map]
    rintro _ ⟨a, _, rfl⟩ _ ⟨b, _, rfl⟩
    exact List.cons_lt_cons_iff.2 (.inl (by omega))

/-- What is found first is what has the least position. -/
theorem find?_eq_some_iff_of_ascending {l : List (List Nat × α)} (hl : Ascending l)
    {test : α → Bool} {a : α} :
    (l.map Prod.snd).find? test = some a ↔ ∃ p, (p, a) ∈ l ∧ test a = true ∧
      ∀ p' a', (p', a') ∈ l → p' < p → test a' = false := by
  induction l with
  | nil => simp
  | cons e l ih =>
    obtain ⟨q, c⟩ := e
    obtain ⟨hfirst, hl⟩ := List.pairwise_cons.1 hl
    rw [List.map_cons]
    cases hc : test c with
    | true =>
      rw [List.find?_cons_of_pos hc]
      constructor
      · intro h
        cases h
        refine ⟨q, List.mem_cons_self, hc, fun p' a' hmem hlt => ?_⟩
        -- no position is below the first one
        rcases List.mem_cons.1 hmem with he | hmem
        · cases he
          exact absurd hlt (List.lt_irrefl _)
        · exact absurd hlt (List.lt_asymm (hfirst _ hmem))
      · rintro ⟨p, hmem, _, hbefore⟩
        rcases List.mem_cons.1 hmem with he | hmem
        · cases he
          rfl
        · have hno := hbefore q c List.mem_cons_self (hfirst _ hmem)
          rw [hc] at hno
          cases hno
    | false =>
      rw [List.find?_cons_of_neg (by simp [hc]), ih hl]
      refine exists_congr fun p => ?_
      constructor
      · rintro ⟨hmem, ha, hbefore⟩
        refine ⟨List.mem_cons_of_mem _ hmem, ha, fun p' a' hmem' hlt => ?_⟩
        rcases List.mem_cons.1 hmem' with he | hmem'
        · cases he
          exact hc
        · exact hbefore p' a' hmem' hlt
      · rintro ⟨hmem, ha, hbefore⟩
        refine ⟨?_, ha, fun p' a' hmem' => hbefore p' a' (List.mem_cons_of_mem _ hmem')⟩
        rcases List.mem_cons.1 hmem with he | hmem
        · cases he
          rw [hc] at ha
          cases ha
        · exact hmem

end

/-! ## References with positions -/

variable {l : List Reference} {ls : List (List Reference)} {p : List Nat} {r head : Reference}

/-- The references of a list, in their order. -/
def listed (l : List Reference) : List (List Nat × Reference) :=
  sections (l.map fun r => [([], r)])

theorem ascending_listed (l : List Reference) : Ascending (listed l) :=
  ascending_sections fun _ hl => by
    obtain ⟨r, _, rfl⟩ := List.mem_map.1 hl
    exact List.pairwise_singleton _ _

theorem map_snd_listed (l : List Reference) : (listed l).map Prod.snd = l := by
  simp [listed, map_snd_sections, List.flatMap_map]

theorem mem_listed : (p, r) ∈ listed l ↔ ∃ j, p = [j] ∧ l[j]? = some r := by
  simp only [listed, mem_sections, List.getElem?_map, Option.map_eq_some_iff]
  constructor
  · rintro ⟨j, q, _, rfl, ⟨r', hr', rfl⟩, hr⟩
    cases List.mem_singleton.1 hr
    exact ⟨j, rfl, hr'⟩
  · rintro ⟨j, rfl, hr⟩
    exact ⟨j, [], _, rfl, ⟨r, hr, rfl⟩, List.mem_singleton.2 rfl⟩

/-- The references of an entry: what it is, and then the lists that it holds. -/
def entry (head : Reference) (ls : List (List Reference)) : List (List Nat × Reference) :=
  sections ([([], head)] :: ls.map listed)

theorem ascending_entry (head : Reference) (ls : List (List Reference)) :
    Ascending (entry head ls) := by
  refine ascending_sections (List.forall_mem_cons.2 ⟨List.pairwise_singleton _ _, ?_⟩)
  exact List.forall_mem_map.2 fun l _ => ascending_listed l

theorem map_snd_entry (head : Reference) (ls : List (List Reference)) :
    (entry head ls).map Prod.snd = head :: ls.flatten := by
  simp [entry, map_snd_sections, List.flatMap_map, map_snd_listed]

theorem mem_entry : (p, r) ∈ entry head ls ↔ p = [0] ∧ r = head ∨
    ∃ k j l, p = [k + 1, j] ∧ ls[k]? = some l ∧ l[j]? = some r := by
  rw [entry, mem_sections]
  constructor
  · rintro ⟨k, q, l, rfl, hl, hr⟩
    cases k with
    | zero =>
      cases hl
      cases List.mem_singleton.1 hr
      exact .inl ⟨rfl, rfl⟩
    | succ k =>
      rw [List.getElem?_cons_succ, List.getElem?_map, Option.map_eq_some_iff] at hl
      obtain ⟨l, hl, rfl⟩ := hl
      obtain ⟨j, rfl, hj⟩ := mem_listed.1 hr
      exact .inr ⟨k, j, l, rfl, hl, hj⟩
  · rintro (⟨rfl, rfl⟩ | ⟨k, j, l, rfl, hl, hr⟩)
    · exact ⟨0, [], _, rfl, rfl, List.mem_singleton.2 rfl⟩
    · exact ⟨k + 1, [j], listed l, rfl, by simp [hl], mem_listed.2 ⟨j, rfl, hr⟩⟩

/-- The references of the entries of a table. -/
def tabled {α : Type} (entries : Array α) (f : Nat → α → List (List Nat × Reference)) :
    List (List Nat × Reference) :=
  sections (entries.toList.zipIdx.map fun (x, i) => f i x)

section

variable {α : Type} {entries : Array α} {f : Nat → α → List (List Nat × Reference)}

theorem ascending_tabled (h : ∀ i x, Ascending (f i x)) : Ascending (tabled entries f) :=
  ascending_sections (List.forall_mem_map.2 fun e _ => h e.2 e.1)

theorem map_snd_tabled {g : Nat → α → List Reference} (h : ∀ i x, (f i x).map Prod.snd = g i x) :
    (tabled entries f).map Prod.snd = entries.toList.zipIdx.flatMap fun (x, i) => g i x := by
  simp [tabled, map_snd_sections, List.flatMap_map, h]

theorem mem_tabled : (p, r) ∈ tabled entries f ↔
    ∃ i x q, p = i :: q ∧ entries[i]? = some x ∧ (q, r) ∈ f i x := by
  simp only [tabled, mem_sections, List.getElem?_map, List.getElem?_zipIdx, Option.map_eq_some_iff,
    Array.getElem?_toList]
  constructor
  · rintro ⟨i, q, _, rfl, ⟨_, ⟨x, hx, rfl⟩, rfl⟩, hr⟩
    exact ⟨i, x, q, rfl, hx, by simpa using hr⟩
  · rintro ⟨i, x, q, rfl, hx, hr⟩
    exact ⟨i, q, _, rfl, ⟨_, ⟨x, hx, rfl⟩, rfl⟩, by simpa using hr⟩

end

def Function.located (i : Nat) (x : Function) : List (List Nat × Reference) :=
  entry (.functionValue i x.value) [x.params.map (.parameter x.name), x.blocks.map (.body x.name)]

def Block.located (i : Nat) (y : Block) : List (List Nat × Reference) :=
  entry (.owner i y.function) [y.instructions.map (.member i)]

def ValueKind.located (i : Nat) : ValueKind → List (List Nat × Reference)
  | .function f | .argument f _ => entry (.valueFunction i f) []
  | .global | .constant => []
  | .aliasOf v => entry (.aliasee i v) []
  | .expr e => entry (.base i e.base) []
  | .instruction ⟨f, b, op⟩ =>
    entry (.place i f b) [op.operands.map (.operand i), op.namedBlocks.map (.target i)]

namespace Module

/-- The references of a module with their positions. -/
def located (m : Module) : List (List Nat × Reference) :=
  sections [tabled m.functions Function.located, tabled m.blocks Block.located,
    listed (m.globals.map .global), tabled m.values fun i x => x.kind.located i]

theorem ascending_located (m : Module) : Ascending m.located := by
  have hkind : ∀ i (x : Value), Ascending (x.kind.located i) := by
    intro i x
    cases x.kind with
    | global | constant => exact List.Pairwise.nil
    | _ => exact ascending_entry _ _
  refine ascending_sections ?_
  simp only [List.forall_mem_cons, List.not_mem_nil, false_imp_iff, implies_true, and_true]
  exact ⟨ascending_tabled fun _ _ => ascending_entry _ _,
    ascending_tabled fun _ _ => ascending_entry _ _, ascending_listed _, ascending_tabled hkind⟩

/-- Without their positions they are the references that loading goes through. -/
theorem map_snd_located (m : Module) : m.located.map Prod.snd = m.references := by
  have hfunction : ∀ i (x : Function), (x.located i).map Prod.snd = x.references i := fun i x => by
    simp [Function.located, Function.references, map_snd_entry]
  have hblock : ∀ i (y : Block), (y.located i).map Prod.snd = y.references i := fun i y => by
    simp [Block.located, Block.references, map_snd_entry]
  have hkind : ∀ i (x : Value), (x.kind.located i).map Prod.snd = x.kind.references i := by
    intro i x
    cases x.kind <;> simp [ValueKind.located, ValueKind.references, map_snd_entry]
  rw [located, map_snd_sections]
  simp only [List.flatMap_cons, List.flatMap_nil, List.append_nil, map_snd_listed,
    map_snd_tabled hfunction, map_snd_tabled hblock, map_snd_tabled hkind, references,
    List.append_assoc]

variable {m : Module}

theorem exists_of_getElem?_map {α : Type} {as : List α} {f : α → Reference} {j : Nat}
    (h : (as.map f)[j]? = some r) : ∃ a, as[j]? = some a ∧ f a = r := by
  rwa [List.getElem?_map, Option.map_eq_some_iff] at h

theorem standsAt_of_function {i : Nat} {x : Function} (hx : m.functions[i]? = some x)
    (h : (p, r) ∈ x.located i) : m.StandsAt (0 :: i :: p) r := by
  rcases mem_entry.1 h with ⟨rfl, rfl⟩ | ⟨k, j, l, rfl, hl, hr⟩
  · exact .functionValue hx
  · match k, hl with
    | 0, rfl =>
      obtain ⟨v, hv, rfl⟩ := exists_of_getElem?_map hr
      exact .parameter hx hv
    | 1, rfl =>
      obtain ⟨b, hb, rfl⟩ := exists_of_getElem?_map hr
      exact .body hx hb

theorem standsAt_of_block {i : Nat} {y : Block} (hy : m.blocks[i]? = some y)
    (h : (p, r) ∈ y.located i) : m.StandsAt (1 :: i :: p) r := by
  rcases mem_entry.1 h with ⟨rfl, rfl⟩ | ⟨k, j, l, rfl, hl, hr⟩
  · exact .owner hy
  · match k, hl with
    | 0, rfl =>
      obtain ⟨v, hv, rfl⟩ := exists_of_getElem?_map hr
      exact .member hy hv

theorem standsAt_of_value {i : Nat} {x : Value} (hx : m.values[i]? = some x)
    (h : (p, r) ∈ x.kind.located i) : m.StandsAt (3 :: i :: p) r := by
  -- an entry without lists has one reference
  have hhead : ∀ {head : Reference}, (p, r) ∈ entry head [] → p = [0] ∧ r = head := by
    intro head h
    rcases mem_entry.1 h with h | ⟨_, _, _, _, hl, _⟩
    · exact h
    · cases hl
  cases hk : x.kind with
  | function f =>
    obtain ⟨rfl, rfl⟩ := hhead (hk ▸ h)
    exact .addressOf hx hk
  | argument f position =>
    obtain ⟨rfl, rfl⟩ := hhead (hk ▸ h)
    exact .argumentOf hx hk
  | global | constant =>
    rw [hk] at h
    cases h
  | aliasOf v =>
    obtain ⟨rfl, rfl⟩ := hhead (hk ▸ h)
    exact .aliasee hx hk
  | expr e =>
    obtain ⟨rfl, rfl⟩ := hhead (hk ▸ h)
    cases e with
    | cast v => exact .castBase hx hk
    | getElementPtr v inBounds => exact .offsetBase hx hk
  | instruction s =>
    obtain ⟨f, b, op⟩ := s
    rw [hk] at h
    rcases mem_entry.1 h with ⟨rfl, rfl⟩ | ⟨k, j, l, rfl, hl, hr⟩
    · exact .place hx hk
    · match k, hl with
      | 0, rfl =>
        obtain ⟨v, hv, rfl⟩ := exists_of_getElem?_map hr
        exact .operand hx hk (Operation.getElem?_operands.1 hv)
      | 1, rfl =>
        obtain ⟨c, hc, rfl⟩ := exists_of_getElem?_map hr
        exact .target hx hk (Operation.getElem?_namedBlocks.1 hc)

theorem mem_located_of_function {i : Nat} {x : Function} (hx : m.functions[i]? = some x)
    (h : (p, r) ∈ x.located i) : (0 :: i :: p, r) ∈ m.located :=
  mem_sections.2 ⟨0, _, _, rfl, rfl, mem_tabled.2 ⟨i, x, p, rfl, hx, h⟩⟩

theorem mem_located_of_block {i : Nat} {y : Block} (hy : m.blocks[i]? = some y)
    (h : (p, r) ∈ y.located i) : (1 :: i :: p, r) ∈ m.located :=
  mem_sections.2 ⟨1, _, _, rfl, rfl, mem_tabled.2 ⟨i, y, p, rfl, hy, h⟩⟩

theorem mem_located_of_value {i : Nat} {x : Value} (hx : m.values[i]? = some x) {k : ValueKind}
    (hk : x.kind = k) (h : (p, r) ∈ k.located i) : (3 :: i :: p, r) ∈ m.located :=
  mem_sections.2 ⟨3, _, _, rfl, rfl, mem_tabled.2 ⟨i, x, p, rfl, hx, by rwa [hk]⟩⟩

/-- The references that loading goes through are those that stand somewhere. -/
theorem mem_located_iff : (p, r) ∈ m.located ↔ m.StandsAt p r := by
  constructor
  · intro h
    obtain ⟨n, q, l, rfl, hl, hr⟩ := mem_sections.1 h
    -- the sections are those of functions, blocks, globals and values, in this order
    match n, hl with
    | 0, rfl =>
      obtain ⟨i, x, q, rfl, hx, hr⟩ := mem_tabled.1 hr
      exact standsAt_of_function hx hr
    | 1, rfl =>
      obtain ⟨i, y, q, rfl, hy, hr⟩ := mem_tabled.1 hr
      exact standsAt_of_block hy hr
    | 2, rfl =>
      obtain ⟨j, rfl, hj⟩ := mem_listed.1 hr
      obtain ⟨v, hv, rfl⟩ := exists_of_getElem?_map hj
      exact .global hv
    | 3, rfl =>
      obtain ⟨i, x, q, rfl, hx, hr⟩ := mem_tabled.1 hr
      exact standsAt_of_value hx hr
  · intro h
    have hhead : ∀ {head ls}, ([0], head) ∈ entry head ls := mem_entry.2 (.inl ⟨rfl, rfl⟩)
    cases h with
    | functionValue hx => exact mem_located_of_function hx hhead
    | parameter hx hv =>
      exact mem_located_of_function hx (mem_entry.2 (.inr ⟨0, _, _, rfl, rfl, by simp [hv]⟩))
    | body hx hb =>
      exact mem_located_of_function hx (mem_entry.2 (.inr ⟨1, _, _, rfl, rfl, by simp [hb]⟩))
    | owner hy => exact mem_located_of_block hy hhead
    | member hy hv =>
      exact mem_located_of_block hy (mem_entry.2 (.inr ⟨0, _, _, rfl, rfl, by simp [hv]⟩))
    | global hv => exact mem_sections.2 ⟨2, _, _, rfl, rfl, mem_listed.2 ⟨_, rfl, by simp [hv]⟩⟩
    | addressOf hx hk | argumentOf hx hk | aliasee hx hk | castBase hx hk | offsetBase hx hk
    | place hx hk => exact mem_located_of_value hx hk hhead
    | operand hx hk hv =>
      refine mem_located_of_value hx hk (mem_entry.2 (.inr ⟨0, _, _, rfl, rfl, ?_⟩))
      simp [Operation.getElem?_operands.2 hv]
    | target hx hk hc =>
      refine mem_located_of_value hx hk (mem_entry.2 (.inr ⟨1, _, _, rfl, rfl, ?_⟩))
      simp [Operation.getElem?_namedBlocks.2 hc]

/-- A module is closed exactly if whatever stands in it is in range. -/
theorem isClosed_iff : m.IsClosed ↔ ∀ p r, m.StandsAt p r → r.Within m := by
  simp only [IsClosed, ← map_snd_located, List.mem_map, Prod.exists, exists_eq_right,
    forall_exists_index, mem_located_iff, Reference.inRange_iff]
  exact forall_comm

theorem dangling?_eq_some_iff : m.dangling? = some r ↔ m.FirstDangling r := by
  rw [dangling?, ← map_snd_located, find?_eq_some_iff_of_ascending m.ascending_located]
  simp only [FirstDangling, mem_located_iff, ← Reference.inRange_iff, Bool.not_eq_true,
    Bool.not_eq_eq_eq_not, Bool.not_true, Bool.not_false]

/-- **The check of ids is exact.** A text of a module is loaded exactly if every id that stands in
the module is in range. Otherwise a reference is reported by its ids, and it is the one with the
least position among those that are out of range. -/
theorem load_exact {text : String} {j : Json} (hj : Json.parse? text = some j)
    (hm : ofJson? j = some m) :
    (load text = .ok m ↔ ∀ p r, m.StandsAt p r → r.Within m) ∧
    (∀ r, load text = .error (.dangling r) ↔ m.FirstDangling r) ∧
    (load text = .ok m ∨
      ∃ r before, load text = .error (.dangling r) ∧ r.message = before ++ r.shown) := by
  rw [← isClosed_iff, ← dangling?_eq_none_iff]
  simp only [← dangling?_eq_some_iff]
  cases hd : m.dangling? with
  | none =>
    have hload : load text = .ok m := by simp [load, hj, fromJson, hm, hd]
    simp [hload]
  | some r =>
    have hload : load text = .error (.dangling r) := by simp [load, hj, fromJson, hm, hd]
    simpa [hload] using r.exists_message_eq

/-- A function whose one instruction is a phi, in which control comes from `bb5` with the address of
the function, and the value `%7` comes from a block that is there. -/
def crossed : Module :=
  ⟨"crossed", #[⟨"f", ⟨0⟩, [], false, .void, [⟨0⟩]⟩], #[⟨⟨0⟩, none, [⟨1⟩]⟩],
    #[⟨.function ⟨0⟩, .ptr 0, none⟩,
      ⟨.instruction ⟨⟨0⟩, ⟨0⟩, .phi [(⟨0⟩, ⟨5⟩), (⟨7⟩, ⟨0⟩)]⟩, .void, none⟩], []⟩

/-- All values that a phi takes in come before all its blocks, so the value is reported. -/
theorem load_exact_crossed :
    load crossed.toJson.render = .error (.dangling (.operand 1 ⟨7⟩)) ∧
      (Reference.operand 1 ⟨7⟩).message = "%1 reads missing value %7" ∧
      crossed.StandsAt [3, 1, 1, 1] (.operand 1 ⟨7⟩) ∧
      crossed.StandsAt [3, 1, 2, 0] (.target 1 ⟨5⟩) := by
  have hfit : crossed.TypesFit := .of_nesting (by decide +kernel)
  have hfirst : crossed.FirstDangling (.operand 1 ⟨7⟩) :=
    dangling?_eq_some_iff.1 (by decide +kernel)
  obtain ⟨_, hreport, _⟩ := load_exact (Json.parse?_render _) (ofJson?_toJson hfit)
  exact ⟨(hreport _).2 hfirst, by decide +kernel, .operand rfl rfl (.incoming rfl),
    .target rfl rfl (.incoming rfl)⟩

end Module

end Sdg
