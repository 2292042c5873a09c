import Sdg.Proofs.Assembled

/-!
# How modules grow

A command adds entries at the ends of tables. Of the entries that are there it changes only lists,
and those only at their ends: a function gets a block, a block an instruction, a phi an incoming
edge. So an id names one and the same entry for good.

Main results:

* `Module.run_adds` — what a command answers and what it makes of a module;
* `Module.Adds.grows`, `Module.grows_of_assemble` — a module grows into what commands make of it.
-/

namespace Sdg

/-- Whether a value is another one, but for what else flows into it if it is a phi. -/
inductive Value.Grows (x : Value) : Value → Prop where
  | same : Grows x x
  | phi {f : FunctionId} {b : BlockId} {incoming : List (ValueId × BlockId)}
      (more : List (ValueId × BlockId)) (hk : x.kind = .instruction ⟨f, b, .phi incoming⟩) :
      Grows x { x with kind := .instruction ⟨f, b, .phi (incoming ++ more)⟩ }

theorem Value.Grows.trans {x y z : Value} (h : x.Grows y) (h' : y.Grows z) : x.Grows z := by
  cases h with
  | same => exact h'
  | phi more hk =>
    cases h' with
    | same => exact .phi more hk
    | phi more' hk' =>
      cases hk'
      rw [List.append_assoc]
      exact .phi (more ++ more') hk

namespace Module

/-- Whether every entry of `m` is in `m'` in its place, with no other change than at the ends of the
lists of blocks of functions, of instructions of blocks, and of what flows into phis. -/
structure Grows (m m' : Module) : Prop where
  functions : ∀ f x, m.function f = .ok x →
    ∃ more, m'.function f = .ok { x with blocks := x.blocks ++ more }
  blocks : ∀ b y, m.block b = .ok y →
    ∃ more, m'.block b = .ok { y with instructions := y.instructions ++ more }
  values : ∀ v x, m.value v = .ok x → ∃ x', m'.value v = .ok x' ∧ x.Grows x'

variable {m m' m'' : Module} {f : FunctionId} {b : BlockId} {v : ValueId}

theorem Grows.refl (m : Module) : m.Grows m where
  functions f x hx := ⟨[], by rw [hx, List.append_nil]⟩
  blocks b y hy := ⟨[], by rw [hy, List.append_nil]⟩
  values v x hx := ⟨x, hx, .same⟩

theorem Grows.trans (h : m.Grows m') (h' : m'.Grows m'') : m.Grows m'' where
  functions f x hx := by
    obtain ⟨more, hx'⟩ := h.functions f x hx
    obtain ⟨more', hx''⟩ := h'.functions f _ hx'
    exact ⟨more ++ more', by rw [hx'', List.append_assoc]⟩
  blocks b y hy := by
    obtain ⟨more, hy'⟩ := h.blocks b y hy
    obtain ⟨more', hy''⟩ := h'.blocks b _ hy'
    exact ⟨more ++ more', by rw [hy'', List.append_assoc]⟩
  values v x hx := by
    obtain ⟨x', hx', hg⟩ := h.values v x hx
    obtain ⟨x'', hx'', hg'⟩ := h'.values v x' hx'
    exact ⟨x'', hx'', hg.trans hg'⟩

theorem within_iff_function : f.Within m ↔ ∃ x, m.function f = .ok x :=
  ⟨exists_function, fun ⟨_, hx⟩ => index_lt_of_function hx⟩

theorem within_iff_block : b.Within m ↔ ∃ y, m.block b = .ok y :=
  ⟨exists_block, fun ⟨_, hy⟩ => index_lt_of_block hy⟩

theorem within_iff_value : v.Within m ↔ ∃ x, m.value v = .ok x :=
  ⟨exists_value, fun ⟨_, hx⟩ => index_lt_of_value hx⟩

/-- An id that names an entry goes on to name one. -/
theorem Grows.within {t : Table} {i : EntryId t} (h : m.Grows m') (hi : i.Within m) :
    i.Within m' := by
  cases t with
  | functions =>
    obtain ⟨x, hx⟩ := within_iff_function.1 hi
    obtain ⟨_, hx'⟩ := h.functions i x hx
    exact within_iff_function.2 ⟨_, hx'⟩
  | blocks =>
    obtain ⟨y, hy⟩ := within_iff_block.1 hi
    obtain ⟨_, hy'⟩ := h.blocks i y hy
    exact within_iff_block.2 ⟨_, hy'⟩
  | values =>
    obtain ⟨x, hx⟩ := within_iff_value.1 hi
    obtain ⟨x', hx', _⟩ := h.values i x hx
    exact within_iff_value.2 ⟨x', hx'⟩

/-! ## Commands -/

/-- The values of the arguments of `f` from position `position` on. -/
def argumentsFrom (f : FunctionId) (position : Nat) : List Ty → List Value
  | [] => []
  | ty :: tys =>
    ⟨.argument f (UInt32.ofNat position), ty, none⟩ :: argumentsFrom f (position + 1) tys

theorem getElem?_argumentsFrom (f : FunctionId) (position : Nat) (tys : List Ty) (j : Nat) :
    (argumentsFrom f position tys)[j]? =
      tys[j]?.map fun ty => ⟨.argument f (UInt32.ofNat (position + j)), ty, none⟩ := by
  induction tys generalizing position j with
  | nil => rfl
  | cons ty tys ih =>
    cases j with
    | zero => rfl
    | succ j =>
      rw [argumentsFrom, List.getElem?_cons_succ, ih, List.getElem?_cons_succ, Nat.add_right_comm,
        Nat.add_assoc]

theorem length_argumentsFrom (f : FunctionId) (position : Nat) (tys : List Ty) :
    (argumentsFrom f position tys).length = tys.length := by
  induction tys generalizing position with
  | nil => rfl
  | cons ty tys ih => exact congrArg (· + 1) (ih (position + 1))

/-- What a command answers in a module, and what it makes of the module. -/
inductive Adds (m : Module) : Command → Added → Module → Prop where
  | functionValue {f : FunctionId} {x : Function} (hx : m.function f = .ok x) :
      Adds m (.functionValue f) (.value x.value) m
  | param {f : FunctionId} {x : Function} {j : Nat} {v : ValueId} (hx : m.function f = .ok x)
      (hv : x.params[j]? = some v) : Adds m (.param f j) (.value v) m
  | constant (ty : Ty) {v : ValueId} (hv : v.index = m.values.size) :
      Adds m (.constant ty) (.value v) { m with values := m.values.push ⟨.constant, ty, none⟩ }
  | expr (e : ConstExpr) (ty : Ty) {v : ValueId} (hv : v.index = m.values.size) :
      Adds m (.expr e ty) (.value v) { m with values := m.values.push ⟨.expr e, ty, none⟩ }
  | aliasOf (name : String) {w v : ValueId} {x : Value} (hx : m.value w = .ok x)
      (hv : v.index = m.values.size) :
      Adds m (.aliasOf name w) (.value v)
        { m with values := m.values.push ⟨.aliasOf w, x.ty, some name⟩ }
  | global (name : String) (ty : Ty) {v : ValueId} (hv : v.index = m.values.size) :
      Adds m (.global name ty) (.value v)
        { m with values := m.values.push ⟨.global, ty, some name⟩, globals := m.globals ++ [v] }
  | function (name : String) {params : List Ty} (returns : Ty) (isVariadic : Bool) {f : FunctionId}
      {v : ValueId} {vs : List ValueId} (hf : f.index = m.functions.size)
      (hv : v.index = m.values.size) (hlength : vs.length = params.length)
      (hvs : ∀ j w, vs[j]? = some w → w.index = m.values.size + 1 + j) :
      Adds m (.function name params returns isVariadic) (.function f)
        { m with
          functions := m.functions.push ⟨name, v, vs, isVariadic, returns, []⟩
          values := m.values ++
            (⟨.function f, .ptr 0, some name⟩ :: argumentsFrom f 0 params).toArray }
  | block (name : String) {f : FunctionId} {x : Function} {b : BlockId} (hx : m.function f = .ok x)
      (hb : b.index = m.blocks.size) :
      Adds m (.block f name) (.block b)
        { m with
          functions := m.functions.setIfInBounds f.index { x with blocks := x.blocks ++ [b] }
          blocks := m.blocks.push ⟨f, some name, []⟩ }
  | push (op : Operation) (ty : Ty) {b : BlockId} {y : Block} {v : ValueId}
      (hy : m.block b = .ok y) (hv : v.index = m.values.size) :
      Adds m (.push b op ty) (.value v)
        { m with
          blocks := m.blocks.setIfInBounds b.index { y with instructions := y.instructions ++ [v] }
          values := m.values.push ⟨.instruction ⟨y.function, b, op⟩, ty, none⟩ }
  | incoming (v : ValueId) (b : BlockId) {phi : ValueId} {x : Value} {f : FunctionId} {c : BlockId}
      {incoming : List (ValueId × BlockId)} (hx : m.value phi = .ok x)
      (hk : x.kind = .instruction ⟨f, c, .phi incoming⟩) :
      Adds m (.incoming phi v b) .nothing
        { m with values := m.values.setIfInBounds phi.index { x with
            kind := .instruction ⟨f, c, .phi (incoming ++ [(v, b)])⟩ } }

theorem eq_of_addValue {x : Value} (h : m.addValue x = .ok (v, m')) :
    v.index = m.values.size ∧ m' = { m with values := m.values.push x } := by
  obtain ⟨v', hv, h⟩ := bind_eq_ok.1 h
  cases h
  exact ⟨index_of_nextId hv, rfl⟩

theorem eq_of_addArguments {tys : List Ty} {position : Nat} {vs : List ValueId}
    (h : m.addArguments f position tys = .ok (vs, m')) :
    vs.length = tys.length ∧ (∀ j w, vs[j]? = some w → w.index = m.values.size + j) ∧
      m' = { m with values := m.values ++ (argumentsFrom f position tys).toArray } := by
  -- each argument is added to the module that those before it made
  induction tys generalizing m m' position vs with
  | nil =>
    cases h
    exact ⟨rfl, nofun, by simp [argumentsFrom]⟩
  | cons ty tys ih =>
    obtain ⟨⟨v, m₁⟩, hv, h⟩ := bind_eq_ok.1 h
    obtain ⟨⟨vs', m₂⟩, hvs, h⟩ := bind_eq_ok.1 h
    cases h
    obtain ⟨hindex, rfl⟩ := eq_of_addValue hv
    obtain ⟨hlength, hindices, rfl⟩ := ih hvs
    refine ⟨congrArg (· + 1) hlength, fun j w hw => ?_, by simp [argumentsFrom]⟩
    cases j with
    | zero =>
      cases hw
      exact hindex
    | succ j =>
      rw [hindices j w hw]
      simp only [Array.size_push]
      omega

/-- What a command does if it is carried out. -/
theorem run_adds {c : Command} {a : Added} (h : c.run m = .ok (a, m')) : m.Adds c a m' := by
  -- a command that is carried out has passed its checks one after another
  cases c with
  | global name ty =>
    obtain ⟨⟨v, m₁⟩, hp, h⟩ := bind_eq_ok.1 h
    obtain ⟨⟨w, m₂⟩, hw, hp⟩ := bind_eq_ok.1 hp
    cases h
    cases hp
    obtain ⟨hindex, rfl⟩ := eq_of_addValue hw
    exact .global name ty hindex
  | constant ty =>
    obtain ⟨⟨v, m₁⟩, hp, h⟩ := bind_eq_ok.1 h
    cases h
    obtain ⟨hindex, rfl⟩ := eq_of_addValue hp
    exact .constant ty hindex
  | expr e ty =>
    obtain ⟨⟨v, m₁⟩, hp, h⟩ := bind_eq_ok.1 h
    cases h
    obtain ⟨hindex, rfl⟩ := eq_of_addValue hp
    exact .expr e ty hindex
  | aliasOf name w =>
    obtain ⟨⟨v, m₁⟩, hp, h⟩ := bind_eq_ok.1 h
    obtain ⟨x, hx, hp⟩ := bind_eq_ok.1 hp
    cases h
    obtain ⟨hindex, rfl⟩ := eq_of_addValue hp
    exact .aliasOf name (asked_eq_ok.1 hx) hindex
  | function name params returns isVariadic =>
    obtain ⟨⟨f, m₁⟩, hp, h⟩ := bind_eq_ok.1 h
    obtain ⟨f', hf, hp⟩ := bind_eq_ok.1 hp
    obtain ⟨⟨v, m₂⟩, hv, hp⟩ := bind_eq_ok.1 hp
    obtain ⟨⟨vs, m₃⟩, hvs, hp⟩ := bind_eq_ok.1 hp
    cases h
    cases hp
    obtain ⟨hindex, rfl⟩ := eq_of_addValue hv
    obtain ⟨hlength, hindices, rfl⟩ := eq_of_addArguments hvs
    -- the address comes first, and the arguments right after it
    have hvalues : ∀ (x : Value) (l : List Value),
        m.values.push x ++ l.toArray = m.values ++ (x :: l).toArray := by simp
    rw [hvalues]
    refine .function name returns isVariadic (index_of_nextId hf) hindex hlength fun j w hw => ?_
    rw [hindices j w hw, Array.size_push]
  | functionValue f =>
    obtain ⟨x, hx, h⟩ := bind_eq_ok.1 h
    cases h
    exact .functionValue (asked_eq_ok.1 hx)
  | param f position =>
    obtain ⟨v, hv, h⟩ := bind_eq_ok.1 h
    obtain ⟨x, hx, hv⟩ := bind_eq_ok.1 hv
    cases h
    cases hparam : x.params[position]? with
    | none =>
      rw [hparam] at hv
      cases hv
    | some w =>
      rw [hparam] at hv
      cases hv
      exact .param (asked_eq_ok.1 hx) hparam
  | block f name =>
    obtain ⟨⟨b, m₁⟩, hp, h⟩ := bind_eq_ok.1 h
    obtain ⟨b', hb, hp⟩ := bind_eq_ok.1 hp
    obtain ⟨x, hx, hp⟩ := bind_eq_ok.1 hp
    cases h
    cases hp
    exact .block name (asked_eq_ok.1 hx) (index_of_nextId hb)
  | push b op ty =>
    obtain ⟨⟨v, m₁⟩, hp, h⟩ := bind_eq_ok.1 h
    obtain ⟨y, hy, hp⟩ := bind_eq_ok.1 hp
    obtain ⟨⟨w, m₂⟩, hw, hp⟩ := bind_eq_ok.1 hp
    cases h
    cases hp
    obtain ⟨hindex, rfl⟩ := eq_of_addValue hw
    exact .push op ty (asked_eq_ok.1 hy) hindex
  | incoming phi v b =>
    obtain ⟨m₁, hp, h⟩ := bind_eq_ok.1 h
    obtain ⟨x, hx, hp⟩ := bind_eq_ok.1 hp
    cases h
    dsimp only at hp
    split at hp
    · rename_i hk
      cases hp
      exact .incoming v b (asked_eq_ok.1 hx) hk
    · cases hp

/-! ## Growing by commands -/

theorem function_eq_ok_iff_getElem? {x : Function} :
    m.function f = .ok x ↔ m.functions[f.index]? = some x := by
  refine ⟨getElem?_of_function, fun h => ?_⟩
  rw [function, h]

theorem block_eq_ok_iff_getElem? {y : Block} : m.block b = .ok y ↔ m.blocks[b.index]? = some y := by
  refine ⟨getElem?_of_block, fun h => ?_⟩
  rw [block, h]

theorem value_eq_ok_iff_getElem? {x : Value} : m.value v = .ok x ↔ m.values[v.index]? = some x := by
  refine ⟨getElem?_of_value, fun h => ?_⟩
  rw [value, h]

/-- The values of a table with more of them at its end. -/
theorem value_append {l : List Value} (h : m'.values = m.values ++ l.toArray) {x : Value} :
    m'.value v = .ok x ↔
      m.value v = .ok x ∨ ∃ j, v.index = m.values.size + j ∧ l[j]? = some x := by
  rw [value_eq_ok_iff_getElem?, value_eq_ok_iff_getElem?, h]
  by_cases hlt : v.index < m.values.size
  · rw [Array.getElem?_append_left hlt, or_iff_left]
    rintro ⟨j, hj, _⟩
    omega
  · have hge := Nat.not_lt.1 hlt
    rw [Array.getElem?_append_right hge, Array.getElem?_eq_none hge, List.getElem?_toArray]
    constructor
    · intro hx
      exact .inr ⟨_, by omega, hx⟩
    · rintro (hx | ⟨j, hj, hx⟩)
      · cases hx
      · rwa [hj, Nat.add_sub_cancel_left]

theorem values_grow_of_append {l : List Value} (h : m'.values = m.values ++ l.toArray) (v : ValueId)
    (x : Value) (hx : m.value v = .ok x) : ∃ x', m'.value v = .ok x' ∧ x.Grows x' :=
  ⟨x, (value_append h).2 (.inl hx), .same⟩

/-- A module grows into what a command makes of it. -/
theorem Adds.grows {c : Command} {a : Added} (h : m.Adds c a m') : m.Grows m' := by
  -- a table that a command does not touch grows by nothing
  have hfunctions : ∀ f x, m.function f = .ok x →
      ∃ more, m.function f = .ok { x with blocks := x.blocks ++ more } := (Grows.refl m).functions
  have hblocks : ∀ b y, m.block b = .ok y →
      ∃ more, m.block b = .ok { y with instructions := y.instructions ++ more } :=
    (Grows.refl m).blocks
  cases h with
  | functionValue hx => exact .refl m
  | param hx hv => exact .refl m
  | constant ty hv => exact ⟨hfunctions, hblocks, values_grow_of_append (Array.push_eq_append ..)⟩
  | expr e ty hv => exact ⟨hfunctions, hblocks, values_grow_of_append (Array.push_eq_append ..)⟩
  | aliasOf name hx hv =>
    exact ⟨hfunctions, hblocks, values_grow_of_append (Array.push_eq_append ..)⟩
  | global name ty hv =>
    exact ⟨hfunctions, hblocks, values_grow_of_append (Array.push_eq_append ..)⟩
  | function name returns isVariadic hf hv hlength hvs =>
    refine ⟨fun g y hy => ⟨[], ?_⟩, hblocks, values_grow_of_append rfl⟩
    have hlt := index_lt_of_function hy
    rw [function_push (m := m) rfl, if_neg (by omega), hy, List.append_nil]
  | block name hx hb =>
    refine ⟨fun g y hy => ?_, fun c y hy => ⟨[], ?_⟩, fun w y hy => ⟨y, hy, .same⟩⟩
    · rw [function_set (m := m) hx rfl]
      split
      · rename_i hg
        subst hg
        rw [hx] at hy
        cases hy
        exact ⟨_, rfl⟩
      · exact ⟨[], by rw [hy, List.append_nil]⟩
    · have hlt := index_lt_of_block hy
      rw [block_push (m := m) rfl, if_neg (by omega), hy, List.append_nil]
  | push op ty hy hv =>
    refine ⟨hfunctions, fun c z hz => ?_, values_grow_of_append (Array.push_eq_append ..)⟩
    rw [block_set (m := m) hy rfl]
    split
    · rename_i hc
      subst hc
      rw [hy] at hz
      cases hz
      exact ⟨_, rfl⟩
    · exact ⟨[], by rw [hz, List.append_nil]⟩
  | incoming v b hx hk =>
    refine ⟨hfunctions, hblocks, fun w y hy => ?_⟩
    rw [value_set (m := m) hx rfl]
    split
    · rename_i hw
      subst hw
      rw [hx] at hy
      cases hy
      exact ⟨_, rfl, .phi _ hk⟩
    · exact ⟨y, hy, .same⟩

/-- What each of some commands keeps, all of them together keep. -/
theorem assemble_keeps {P : Module → Prop} {cs : List Command}
    (hstep : ∀ c ∈ cs, ∀ m a m', P m → m.Adds c a m' → P m') (h : P m)
    (hm : m.assemble cs = .ok m') : P m' := by
  induction cs generalizing m with
  | nil =>
    cases hm
    exact h
  | cons c cs ih =>
    obtain ⟨p, hrun, hm⟩ := run_of_assemble_cons hm
    exact ih (fun d hd => hstep d (List.mem_cons_of_mem c hd))
      (hstep c List.mem_cons_self m p.1 p.2 h (run_adds hrun)) hm

/-- A module grows into what a list of commands makes of it. -/
theorem grows_of_assemble {cs : List Command} (hm : m.assemble cs = .ok m') : m.Grows m' :=
  assemble_keeps (P := m.Grows) (fun _ _ _ _ _ h hadds => h.trans hadds.grows) (.refl m) hm

end Module

end Sdg
