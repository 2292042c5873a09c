import Sdg.IR.Assembly
import Sdg.Proofs.Closed
import Sdg.Proofs.Formals.Access

/-!
# Assembled modules

A module that commands put together is tidy: functions stand behind values of their own, an
instruction stands in the block that it names, and nothing stands anywhere twice. Each command adds
entries to the end of tables, and what it changes of old ones are the ends of lists: a function gets
a new block, a block a new instruction, a phi one more incoming edge.

Main result:

* `Module.Assembled.tidy` — what commands put together is tidy.
-/

namespace Sdg

namespace Module

/-- The modules that commands put together. -/
inductive Assembled : Module → Prop where
  | empty (name : String) : Assembled (.empty name)
  | command {m m' : Module} {c : Command} {a : Added} : Assembled m → c.run m = .ok (a, m') →
      Assembled m'

/-- The module that commands make out of a module, one after another. -/
def assemble (m : Module) (cs : List Command) : Except AssemblyError Module :=
  cs.foldlM (fun m c => (Command.run m c).map Prod.snd) m

/-- Everything stands in one place, and that is where it says that it stands. -/
structure Tidy (m : Module) : Prop where
  named : ∀ f x, m.function f = .ok x → ∃ v, m.value x.value = .ok v ∧ v.kind = .function f
  placed : ∀ b y v, m.block b = .ok y → v ∈ y.instructions →
    ∃ x i, m.value v = .ok x ∧ x.kind = .instruction i ∧ i.block = b
  distinct : ∀ b y, m.block b = .ok y → y.instructions.Nodup
  inRange : ∀ f x, m.function f = .ok x → ∀ b ∈ x.blocks, ∃ y, m.block b = .ok y
  distinctBlocks : ∀ f x, m.function f = .ok x → x.blocks.Nodup

variable {m m' m'' : Module} {f : FunctionId} {b : BlockId} {v : ValueId}

theorem Tidy.empty (name : String) : (Module.empty name).Tidy :=
  ⟨nofun, nofun, nofun, nofun, nofun⟩

/-! ## Tables -/

theorem index_lt_of_block {y : Block} (h : m.block b = .ok y) : b.index < m.blocks.size :=
  (Array.getElem?_eq_some_iff.1 (getElem?_of_block h)).1

section

variable {α : Type} {t : Table} {entries : Array α} {i : EntryId t} {what : Missing}

/-- What a query finds in a table. -/
def found (slot : Option α) (what : Missing) : Except Missing α :=
  match slot with
  | some x => .ok x
  | none => .error what

/-- A table with a new entry at its end. -/
theorem found_push (x : α) (k : EntryId t) :
    found (entries.push x)[k.index]? what =
      if k.index = entries.size then .ok x else found entries[k.index]? what := by
  rw [Array.getElem?_push]
  split <;> rfl

/-- A table with another entry in place of one that is there. -/
theorem found_set (hi : i.index < entries.size) (x : α) (k : EntryId t) :
    found (entries.setIfInBounds i.index x)[k.index]? what =
      if k = i then .ok x else found entries[k.index]? what := by
  rw [Array.getElem?_setIfInBounds, if_pos hi]
  by_cases hk : k = i
  · rw [if_pos hk, if_pos (congrArg _ hk.symm)]
    rfl
  · rw [if_neg hk, if_neg fun hi => hk (EntryId.ext_index hi.symm)]

end

theorem function_eq_found (m : Module) (k : FunctionId) :
    m.function k = found m.functions[k.index]? ⟨.functions, k⟩ := by
  unfold function
  cases m.functions[k.index]? <;> rfl

theorem block_eq_found (m : Module) (c : BlockId) :
    m.block c = found m.blocks[c.index]? ⟨.blocks, c⟩ := by
  unfold block
  cases m.blocks[c.index]? <;> rfl

theorem value_eq_found (m : Module) (w : ValueId) :
    m.value w = found m.values[w.index]? ⟨.values, w⟩ := by
  unfold value
  cases m.values[w.index]? <;> rfl

theorem function_push {x : Function} (h : m'.functions = m.functions.push x) (k : FunctionId) :
    m'.function k = if k.index = m.functions.size then .ok x else m.function k := by
  rw [function_eq_found, function_eq_found, h, found_push]

theorem block_push {y : Block} (h : m'.blocks = m.blocks.push y) (c : BlockId) :
    m'.block c = if c.index = m.blocks.size then .ok y else m.block c := by
  rw [block_eq_found, block_eq_found, h, found_push]

theorem value_push {x : Value} (h : m'.values = m.values.push x) (w : ValueId) :
    m'.value w = if w.index = m.values.size then .ok x else m.value w := by
  rw [value_eq_found, value_eq_found, h, found_push]

theorem function_set {x x' : Function} (hx : m.function f = .ok x)
    (h : m'.functions = m.functions.setIfInBounds f.index x') (k : FunctionId) :
    m'.function k = if k = f then .ok x' else m.function k := by
  rw [function_eq_found, function_eq_found, h, found_set (index_lt_of_function hx)]

theorem block_set {y y' : Block} (hy : m.block b = .ok y)
    (h : m'.blocks = m.blocks.setIfInBounds b.index y') (c : BlockId) :
    m'.block c = if c = b then .ok y' else m.block c := by
  rw [block_eq_found, block_eq_found, h, found_set (index_lt_of_block hy)]

theorem value_set {x x' : Value} (hx : m.value v = .ok x)
    (h : m'.values = m.values.setIfInBounds v.index x') (w : ValueId) :
    m'.value w = if w = v then .ok x' else m.value w := by
  rw [value_eq_found, value_eq_found, h, found_set (index_lt_of_value hx)]

theorem asked_eq_ok {α : Type} {x : Except Missing α} {a : α} : asked x = .ok a ↔ x = .ok a := by
  cases x <;> simp [asked]

/-- A new entry gets the id that no other has. -/
theorem index_of_nextId {t : Table} {n : Nat} {i : EntryId t} (h : nextId t n = .ok i) :
    i.index = n := by
  unfold nextId at h
  split at h
  · cases h
    exact EntryId.index_of_ofNat? ‹_›
  · cases h

/-! ## Values -/

/-- The module `m'` has the functions and the blocks of `m`, and its values, but for what flows into
phis. -/
structure Extends (m m' : Module) : Prop where
  functions : m'.function = m.function
  blocks : m'.block = m.block
  size : m'.functions.size = m.functions.size
  values : ∀ v x, m.value v = .ok x → ∃ x', m'.value v = .ok x' ∧
    (∀ f, x.kind = .function f → x'.kind = .function f) ∧
    ∀ i, x.kind = .instruction i → ∃ i', x'.kind = .instruction i' ∧ i'.block = i.block

theorem Extends.refl (m : Module) : m.Extends m :=
  ⟨rfl, rfl, rfl, fun _ x hx => ⟨x, hx, fun _ h => h, fun i h => ⟨i, h, rfl⟩⟩⟩

theorem Extends.trans (h : m.Extends m') (h' : m'.Extends m'') : m.Extends m'' := by
  refine ⟨h'.functions.trans h.functions, h'.blocks.trans h.blocks, h'.size.trans h.size,
    fun v x hx => ?_⟩
  obtain ⟨x', hx', hf, hi⟩ := h.values v x hx
  obtain ⟨x'', hx'', hf', hi'⟩ := h'.values v x' hx'
  refine ⟨x'', hx'', fun f hk => hf' f (hf f hk), fun i hk => ?_⟩
  obtain ⟨i', hk', hb⟩ := hi i hk
  obtain ⟨i'', hk'', hb'⟩ := hi' i' hk'
  exact ⟨i'', hk'', hb'.trans hb⟩

theorem Tidy.extends (h : m.Tidy) (he : m.Extends m') : m'.Tidy where
  named f x hx := by
    obtain ⟨v, hv, hk⟩ := h.named f x (he.functions ▸ hx)
    obtain ⟨v', hv', hk', _⟩ := he.values _ v hv
    exact ⟨v', hv', hk' f hk⟩
  placed b y v hy hmem := by
    obtain ⟨x, i, hx, hk, hib⟩ := h.placed b y v (he.blocks ▸ hy) hmem
    obtain ⟨x', hx', _, hi⟩ := he.values v x hx
    obtain ⟨i', hk', hib'⟩ := hi i hk
    exact ⟨x', i', hx', hk', hib'.trans hib⟩
  distinct b y hy := h.distinct b y (he.blocks ▸ hy)
  inRange f x hx b hb := by
    rw [he.blocks]
    exact h.inRange f x (he.functions ▸ hx) b hb
  distinctBlocks f x hx := h.distinctBlocks f x (he.functions ▸ hx)

/-- A new value comes after all others. -/
theorem addValue_eq_ok {x : Value} (h : m.addValue x = .ok (v, m')) :
    m.Extends m' ∧ m'.value v = .ok x ∧ v.index = m.values.size := by
  obtain ⟨v', hv, h⟩ := bind_eq_ok.1 h
  cases h
  have hindex := index_of_nextId hv
  refine ⟨⟨rfl, rfl, rfl, fun w y hy => ⟨y, ?_, fun _ h => h, fun i h => ⟨i, h, rfl⟩⟩⟩, ?_, hindex⟩
  · have hlt := index_lt_of_value hy
    rw [value_push (m := m) rfl, if_neg (by omega), hy]
  · rw [value_push (m := m) rfl, if_pos hindex]

theorem addGlobal_extends {name : String} {ty : Ty} (h : m.addGlobal name ty = .ok (v, m')) :
    m.Extends m' := by
  obtain ⟨⟨w, m₁⟩, hw, h⟩ := bind_eq_ok.1 h
  cases h
  have he := (addValue_eq_ok hw).1
  exact ⟨he.functions, he.blocks, he.size, he.values⟩

theorem addAlias_extends {name : String} {w : ValueId} (h : m.addAlias name w = .ok (v, m')) :
    m.Extends m' := by
  obtain ⟨x, _, h⟩ := bind_eq_ok.1 h
  exact (addValue_eq_ok h).1

theorem addArguments_extends {tys : List Ty} {position : Nat} {vs : List ValueId}
    (h : m.addArguments f position tys = .ok (vs, m')) : m.Extends m' := by
  induction tys generalizing m m' position vs with
  | nil =>
    cases h
    exact .refl m
  | cons ty tys ih =>
    obtain ⟨⟨v, m₁⟩, hv, h⟩ := bind_eq_ok.1 h
    obtain ⟨⟨vs', m₂⟩, hvs, h⟩ := bind_eq_ok.1 h
    cases h
    exact (addValue_eq_ok hv).1.trans (ih hvs)

/-- A phi stays one where it stands. -/
theorem addIncoming_extends {phi : ValueId} (h : m.addIncoming phi v b = .ok m') :
    m.Extends m' := by
  obtain ⟨x, hx, h⟩ := bind_eq_ok.1 h
  have hx := asked_eq_ok.1 hx
  dsimp only at h
  split at h
  · rename_i f c incoming hk
    cases h
    refine ⟨rfl, rfl, rfl, fun w y hy => ?_⟩
    rw [value_set (m := m) hx rfl]
    split
    · rename_i hw
      subst hw
      rw [hx] at hy
      cases hy
      refine ⟨_, rfl, fun f' h => ?_, fun i h => ⟨_, rfl, ?_⟩⟩ <;> rw [hk] at h <;> cases h
      rfl
    · exact ⟨y, hy, fun _ h => h, fun i h => ⟨i, h, rfl⟩⟩
  · cases h

/-! ## Functions and blocks -/

/-- A new function stands behind a value of its own, and has no blocks yet. -/
theorem Tidy.pushFunction {x : Function} {v : Value} (h : m.Tidy)
    (hf : f.index = m.functions.size) (hv : m.value x.value = .ok v) (hk : v.kind = .function f)
    (hnil : x.blocks = []) (hfunctions : m'.functions = m.functions.push x)
    (hblocks : m'.block = m.block) (hvalues : m'.value = m.value) : m'.Tidy := by
  -- a function is the new one, or it was there
  have hold : ∀ k y, m'.function k = .ok y → k = f ∧ y = x ∨ m.function k = .ok y := by
    intro k y hy
    rw [function_push hfunctions] at hy
    split at hy
    · cases hy
      exact Or.inl ⟨EntryId.ext_index (by omega), rfl⟩
    · exact Or.inr hy
  constructor
  case named =>
    intro k y hy
    rw [hvalues]
    rcases hold k y hy with ⟨rfl, rfl⟩ | hy
    · exact ⟨v, hv, hk⟩
    · exact h.named k y hy
  case placed =>
    rw [hblocks, hvalues]
    exact h.placed
  case distinct =>
    rw [hblocks]
    exact h.distinct
  case inRange =>
    intro k y hy b hb
    rw [hblocks]
    rcases hold k y hy with ⟨rfl, rfl⟩ | hy
    · rw [hnil] at hb
      cases hb
    · exact h.inRange k y hy b hb
  case distinctBlocks =>
    intro k y hy
    rcases hold k y hy with ⟨rfl, rfl⟩ | hy
    · rw [hnil]
      exact List.nodup_nil
    · exact h.distinctBlocks k y hy

/-- A new block comes at the end of its function, and has no instructions yet. -/
theorem Tidy.pushBlock {x : Function} {z : Block} (h : m.Tidy) (hx : m.function f = .ok x)
    (hb : b.index = m.blocks.size) (hnil : z.instructions = [])
    (hfunctions : m'.functions = m.functions.setIfInBounds f.index
      { x with blocks := x.blocks ++ [b] })
    (hblocks : m'.blocks = m.blocks.push z) (hvalues : m'.value = m.value) : m'.Tidy := by
  -- blocks of before keep their places
  have hkept : ∀ c y, m.block c = .ok y → ∃ y, m'.block c = .ok y := by
    intro c y hy
    rw [block_push hblocks]
    split
    · exact ⟨z, rfl⟩
    · exact ⟨y, hy⟩
  constructor
  case named =>
    intro k y hy
    rw [function_set hx hfunctions] at hy
    rw [hvalues]
    split at hy
    · rename_i hk
      cases hy
      exact hk ▸ h.named f x hx
    · exact h.named k y hy
  case placed =>
    intro c y v hy hv
    rw [block_push hblocks] at hy
    rw [hvalues]
    split at hy
    · cases hy
      rw [hnil] at hv
      cases hv
    · exact h.placed c y v hy hv
  case distinct =>
    intro c y hy
    rw [block_push hblocks] at hy
    split at hy
    · cases hy
      rw [hnil]
      exact List.nodup_nil
    · exact h.distinct c y hy
  case inRange =>
    intro k y hy c hc
    rw [function_set hx hfunctions] at hy
    split at hy
    · cases hy
      rcases List.mem_append.1 hc with hc | hc
      · obtain ⟨w, hw⟩ := h.inRange f x hx c hc
        exact hkept c w hw
      · rw [List.mem_singleton.1 hc, block_push hblocks, if_pos hb]
        exact ⟨z, rfl⟩
    · obtain ⟨w, hw⟩ := h.inRange k y hy c hc
      exact hkept c w hw
  case distinctBlocks =>
    intro k y hy
    rw [function_set hx hfunctions] at hy
    split at hy
    · cases hy
      -- the new block is not among the blocks of before
      refine List.nodup_append.2 ⟨h.distinctBlocks f x hx, by simp, fun c hc d hd hcd => ?_⟩
      obtain ⟨w, hw⟩ := h.inRange f x hx c hc
      have hlt := index_lt_of_block hw
      rw [hcd, List.mem_singleton.1 hd, hb] at hlt
      exact Nat.lt_irrefl _ hlt
    · exact h.distinctBlocks k y hy

/-- A new instruction comes at the end of the block that it names. -/
theorem Tidy.pushInstruction {y : Block} {x : Value} {i : Instruction} (h : m.Tidy)
    (hy : m.block b = .ok y) (hx : m.value v = .ok x) (hk : x.kind = .instruction i)
    (hib : i.block = b) (hnew : v ∉ y.instructions)
    (hblocks : m'.blocks = m.blocks.setIfInBounds b.index
      { y with instructions := y.instructions ++ [v] })
    (hfunctions : m'.function = m.function) (hvalues : m'.value = m.value) : m'.Tidy := by
  constructor
  case named =>
    rw [hfunctions, hvalues]
    exact h.named
  case placed =>
    intro c z u hz hu
    rw [block_set hy hblocks] at hz
    rw [hvalues]
    split at hz
    · -- the new instruction is the last of its block, all before it were there
      rename_i hc
      cases hz
      rcases List.mem_append.1 hu with hu | hu
      · exact hc ▸ h.placed b y u hy hu
      · rw [List.mem_singleton.1 hu]
        exact ⟨x, i, hx, hk, hib.trans hc.symm⟩
    · exact h.placed c z u hz hu
  case distinct =>
    intro c z hz
    rw [block_set hy hblocks] at hz
    split at hz
    · cases hz
      refine List.nodup_append.2 ⟨h.distinct b y hy, by simp, fun u hu d hd hud => ?_⟩
      rw [hud, List.mem_singleton.1 hd] at hu
      exact hnew hu
    · exact h.distinct c z hz
  case inRange =>
    intro k w hw c hc
    rw [hfunctions] at hw
    rw [block_set hy hblocks]
    split
    · exact ⟨_, rfl⟩
    · exact h.inRange k w hw c hc
  case distinctBlocks =>
    rw [hfunctions]
    exact h.distinctBlocks

theorem addFunction_tidy {name : String} {params : List Ty} {returns : Ty} {isVariadic : Bool}
    (h : m.Tidy) (hm : m.addFunction name params returns isVariadic = .ok (f, m')) : m'.Tidy := by
  obtain ⟨f', hf, hm⟩ := bind_eq_ok.1 hm
  obtain ⟨⟨v, m₁⟩, hv, hm⟩ := bind_eq_ok.1 hm
  obtain ⟨⟨vs, m₂⟩, hvs, hm⟩ := bind_eq_ok.1 hm
  obtain ⟨he, hvalue, _⟩ := addValue_eq_ok hv
  have he₂ := addArguments_extends hvs
  obtain ⟨v', hv', hk, _⟩ := he₂.values v _ hvalue
  have hsize : f'.index = m₂.functions.size := by
    rw [index_of_nextId hf, he₂.size, he.size]
  cases hm
  exact ((h.extends he).extends he₂).pushFunction hsize hv' (hk _ rfl) rfl rfl rfl rfl

theorem addBlock_tidy {name : String} (h : m.Tidy) (hm : m.addBlock f name = .ok (b, m')) :
    m'.Tidy := by
  obtain ⟨b', hb, hm⟩ := bind_eq_ok.1 hm
  obtain ⟨x, hx, hm⟩ := bind_eq_ok.1 hm
  cases hm
  exact h.pushBlock (asked_eq_ok.1 hx) (index_of_nextId hb) rfl rfl rfl rfl

theorem addInstruction_tidy {op : Operation} {ty : Ty} (h : m.Tidy)
    (hm : m.addInstruction b op ty = .ok (v, m')) : m'.Tidy := by
  obtain ⟨y, hy, hm⟩ := bind_eq_ok.1 hm
  have hy := asked_eq_ok.1 hy
  obtain ⟨⟨w, m₁⟩, hw, hm⟩ := bind_eq_ok.1 hm
  obtain ⟨he, hvalue, hindex⟩ := addValue_eq_ok hw
  -- what stands in the block has a value, and the new value had none
  have hnew : w ∉ y.instructions := by
    intro hmem
    obtain ⟨x, _, hx, _⟩ := h.placed b y w hy hmem
    have hlt := index_lt_of_value hx
    omega
  cases hm
  exact (h.extends he).pushInstruction (he.blocks ▸ hy) hvalue rfl rfl hnew rfl rfl rfl

/-! ## Commands -/

theorem run_tidy {c : Command} {a : Added} (h : m.Tidy) (hm : c.run m = .ok (a, m')) :
    m'.Tidy := by
  -- only functions, blocks and instructions add to what is tidy; other commands add values alone
  cases c with
  | global name ty =>
    obtain ⟨p, hp, hm⟩ := bind_eq_ok.1 hm
    cases hm
    exact h.extends (addGlobal_extends hp)
  | constant ty =>
    obtain ⟨p, hp, hm⟩ := bind_eq_ok.1 hm
    cases hm
    exact h.extends (addValue_eq_ok hp).1
  | expr e ty =>
    obtain ⟨p, hp, hm⟩ := bind_eq_ok.1 hm
    cases hm
    exact h.extends (addValue_eq_ok hp).1
  | aliasOf name w =>
    obtain ⟨p, hp, hm⟩ := bind_eq_ok.1 hm
    cases hm
    exact h.extends (addAlias_extends hp)
  | function name params returns isVariadic =>
    obtain ⟨p, hp, hm⟩ := bind_eq_ok.1 hm
    cases hm
    exact addFunction_tidy h hp
  | functionValue f =>
    obtain ⟨_, _, hm⟩ := bind_eq_ok.1 hm
    cases hm
    exact h
  | param f position =>
    obtain ⟨_, _, hm⟩ := bind_eq_ok.1 hm
    cases hm
    exact h
  | block f name =>
    obtain ⟨p, hp, hm⟩ := bind_eq_ok.1 hm
    cases hm
    exact addBlock_tidy h hp
  | push b op ty =>
    obtain ⟨p, hp, hm⟩ := bind_eq_ok.1 hm
    cases hm
    exact addInstruction_tidy h hp
  | incoming phi v b =>
    obtain ⟨_, hp, hm⟩ := bind_eq_ok.1 hm
    cases hm
    exact h.extends (addIncoming_extends hp)

/-- The first command has an outcome of its own, from which the others go on. -/
theorem run_of_assemble_cons {c : Command} {cs : List Command}
    (hm : m.assemble (c :: cs) = .ok m') :
    ∃ p, c.run m = .ok p ∧ p.2.assemble cs = .ok m' := by
  rw [Module.assemble, List.foldlM_cons] at hm
  obtain ⟨m₁, hrun, hm⟩ := bind_eq_ok.1 hm
  cases hc : c.run m with
  | error e =>
    rw [hc] at hrun
    cases hrun
  | ok p =>
    rw [hc] at hrun
    cases hrun
    exact ⟨p, rfl, hm⟩

/-- What a list of commands makes is assembled. -/
theorem Assembled.assemble {cs : List Command} (h : m.Assembled) (hm : m.assemble cs = .ok m') :
    m'.Assembled := by
  induction cs generalizing m with
  | nil =>
    cases hm
    exact h
  | cons c cs ih =>
    obtain ⟨p, hrun, hm⟩ := run_of_assemble_cons hm
    exact ih (h.command hrun) hm

/-- **Tidiness.** What commands put together is tidy. -/
theorem Assembled.tidy (h : m.Assembled) : m.Tidy := by
  induction h with
  | empty name => exact .empty name
  | command _ hrun ih => exact run_tidy ih hrun

end Module

end Sdg
