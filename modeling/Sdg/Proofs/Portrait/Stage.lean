import Mathlib.Data.List.Forall2
import Sdg.Proofs.Formals.Access
import Sdg.Proofs.Portrait.Layout

/-!
# Stages of a body

How far the build of a body has come is told without nodes, by a `Stage`: which blocks have a unit,
which values stand in them, which of these are listed as calls, whether there is an exit, and which
units are joined by edges. A graph that shows a stage has one node for each value and nothing else.
Each step that a build takes on its own graph leads from one stage to the next.

Main results:

* `Stage.Shows.of_layout` — which stage a graph shows is told by its layout;
* `Stage.Shows.list`, `Stage.Shows.openUnit`, `Stage.Shows.call`, `Stage.Shows.addExit`,
  `Stage.Shows.lead`, `Stage.Shows.govern` — the steps of a build.
-/

namespace Sdg

/-- How far the build of a body has come. -/
structure Stage where
  /-- The blocks that have a unit. -/
  blocks : List BlockId
  /-- The values that have a node, with the blocks that they stand in. -/
  values : List (BlockId × ValueId)
  /-- The values that are listed as calls. -/
  calls : List ValueId
  start? : Option BlockId
  exit? : Option ExitKind
  leads : BlockKey → BlockKey → Nat → Prop
  governs : BlockKey → BlockKey → Prop

namespace Stage

/-- Nothing but the entry. -/
def start : Stage := ⟨[], [], [], none, none, fun _ _ _ => False, fun _ _ => False⟩

/-- The values that stand in a block. -/
def valuesOf (t : Stage) (b : BlockId) : List ValueId := (t.values.filter (·.1 = b)).map Prod.snd

/-- One more value in a block. -/
def list (t : Stage) (b : BlockId) (v : ValueId) : Stage :=
  { t with values := t.values ++ [(b, v)] }

/-- One more block, with its first value. -/
def openUnit (t : Stage) (b : BlockId) (v : ValueId) : Stage :=
  { t.list b v with blocks := t.blocks ++ [b] }

def call (t : Stage) (v : ValueId) : Stage := { t with calls := t.calls ++ [v] }

def lead (t : Stage) (a b : BlockKey) (label : Nat) : Stage :=
  { t with leads := fun c d l => t.leads c d l ∨ c = a ∧ d = b ∧ l = label }

def govern (t : Stage) (a b : BlockKey) : Stage :=
  { t with governs := fun c d => t.governs c d ∨ c = a ∧ d = b }

variable {t : Stage} {x : Function} {f : FunctionId} {y z : Graph} {b d : BlockId} {v w : ValueId}
  {n : NodeId} {k : BlockKey} {key : NodeKey}

theorem valuesOf_list : (t.list b v).valuesOf d =
    if d = b then t.valuesOf d ++ [v] else t.valuesOf d := by
  unfold valuesOf list
  rw [List.filter_append, List.map_append]
  by_cases h : d = b
  · subst h
    simp
  · simp [h, Ne.symm h]

theorem mem_valuesOf : v ∈ t.valuesOf b ↔ (b, v) ∈ t.values := by
  simp [valuesOf]

/-- The key of a node that a graph at this stage has. -/
def Keys (t : Stage) (x : Function) (f : FunctionId) (key : NodeKey) : Prop :=
  key = .value x.value ∨ (∃ b v, (b, v) ∈ t.values ∧ key = .value v) ∨
    ∃ kind, t.exit? = some kind ∧ key = .exit f kind

/-- The graph of the function `f` has come to this stage. -/
structure Shows (t : Stage) (x : Function) (f : FunctionId) (y : Graph) : Prop where
  function : y.function = f
  blocks : y.units.keys = t.blocks
  start : y.entryBlock? = t.start?
  entry : ∃ n, y.entryNode? = some n ∧ y.index.get? (.value x.value) = some n
  nodes : ∀ b u, y.unit? (.block b) = some u →
    List.Forall₂ (fun n v => y.index.get? (.value v) = some n) u.nodes (t.valuesOf b)
  keyed : ∀ k u, y.unit? k = some u → u.key = k
  index : ∀ key, (∃ n, y.index.get? key = some n) ↔ t.Keys x f key
  exit : y.exitNode? = none ∧ y.unit? .exit = none ∧ t.exit? = none ∨
    ∃ n u kind, y.exitNode? = some n ∧ y.unit? .exit = some u ∧ u.nodes = [n] ∧
      t.exit? = some kind ∧ y.index.get? (.exit f kind) = some n
  calls : ∀ c, c ∈ y.callNodes ↔ ∃ v ∈ t.calls, y.index.get? (.value v) = some c
  listed : ∀ v ∈ t.calls, ∃ b, (b, v) ∈ t.values
  leads : ∀ a b label, y.Leads a b label ↔ t.leads a b label
  governs : ∀ a b, y.Governs a b ↔ t.governs a b

/-! ## What a stage tells -/

theorem Shows.exists_unit (h : t.Shows x f y) :
    (∃ u, y.unit? (.block b) = some u) ↔ b ∈ t.blocks := by
  rw [← h.blocks]
  exact OrderedMap.mem_keys.symm

/-- A graph has an exit if the stage says so. -/
theorem Shows.exitNode?_isNone (h : t.Shows x f y) : y.exitNode?.isNone = t.exit?.isNone := by
  rcases h.exit with ⟨hn, _, ht⟩ | ⟨n, u, kind, hn, _, _, ht, _⟩
  · rw [hn, ht]
    rfl
  · rw [hn, ht]
    rfl

/-- Which stage a graph shows is told by its layout. -/
theorem Shows.of_layout (h : t.Shows x f y) (hz : z.layout = y.layout) : t.Shows x f z := by
  -- a stage says nothing about phase, parameters, links and references, which a layout drops
  have hfun : z.function = y.function :=
    Graph.eq_of_layout Graph.function (fun _ => rfl) hz
  have hstart : z.entryBlock? = y.entryBlock? :=
    Graph.eq_of_layout Graph.entryBlock? (fun _ => rfl) hz
  have hentry : z.entryNode? = y.entryNode? :=
    Graph.eq_of_layout Graph.entryNode? (fun _ => rfl) hz
  have hexit : z.exitNode? = y.exitNode? :=
    Graph.eq_of_layout Graph.exitNode? (fun _ => rfl) hz
  have hindex : z.index = y.index :=
    Graph.eq_of_layout Graph.index (fun _ => rfl) hz
  have hcalls : z.callNodes = y.callNodes :=
    Graph.eq_of_layout Graph.callNodes (fun _ => rfl) hz
  have hkeys : z.units.keys = y.units.keys := by
    exact Graph.eq_of_layout (fun y => y.units.keys) (fun y => OrderedMap.keys_mapValues _ _) hz
  constructor
  case function => rw [hfun, h.function]
  case blocks => rw [hkeys, h.blocks]
  case start => rw [hstart, h.start]
  case entry =>
    rw [hentry, hindex]
    exact h.entry
  case nodes =>
    intro b u hu
    obtain ⟨w, hw, hn⟩ := Graph.exists_unit_eq_of_layout BlockUnit.nodes (fun _ => rfl) hz hu
    rw [hindex, hn]
    exact h.nodes b w hw
  case keyed =>
    intro k u hu
    obtain ⟨w, hw, hk⟩ := Graph.exists_unit_eq_of_layout BlockUnit.key (fun _ => rfl) hz hu
    rw [hk]
    exact h.keyed k w hw
  case index =>
    rw [hindex]
    exact h.index
  case exit =>
    rw [hexit, hindex]
    rcases h.exit with ⟨hn, hu, ht⟩ | ⟨n, u, kind, hn, hu, hun, ht, hi⟩
    · refine Or.inl ⟨hn, ?_, ht⟩
      cases hw : z.unit? .exit with
      | none => rfl
      | some w =>
        obtain ⟨u, hu', _⟩ := Graph.exists_unit_of_layout hz hw
        rw [hu] at hu'
        cases hu'
    · obtain ⟨w, hw, he⟩ :=
        Graph.exists_unit_eq_of_layout BlockUnit.nodes (fun _ => rfl) hz.symm hu
      exact Or.inr ⟨n, w, kind, hn, hw, he.symm.trans hun, ht, hi⟩
  case calls =>
    rw [hcalls, hindex]
    exact h.calls
  case listed => exact h.listed
  case leads =>
    intro a b label
    rw [← h.leads]
    exact Graph.exists_mem_of_layout BlockUnit.successors (fun _ => rfl) hz
  case governs =>
    intro a b
    rw [← h.governs]
    exact Graph.exists_mem_of_layout BlockUnit.controls (fun _ => rfl) hz

/-! ## The steps of a build -/

/-- A key that is in no use yet. -/
theorem get?_insert_of_get? {m : OrderedMap NodeKey NodeId} {j : NodeKey} {i : NodeId}
    (hkey : m.get? key = none) (hi : m.get? j = some i) : (m.insert key n).get? j = some i := by
  rw [OrderedMap.get?_insert, if_neg, hi]
  rintro rfl
  rw [hkey] at hi
  cases hi

/-- A new node in a unit, whether the unit was there or comes with it. -/
theorem Shows.give (bs : List BlockId) (h : t.Shows x f y)
    (hkey : y.index.get? (.value v) = none)
    (hf : z.function = y.function) (hs : z.entryBlock? = y.entryBlock?)
    (hentry : z.entryNode? = y.entryNode?) (hexit : z.exitNode? = y.exitNode?)
    (hi : z.index = y.index.insert (.value v) n) (hc : z.callNodes = y.callNodes)
    (hblocks : z.units.keys = bs) (hblock : ∀ d u, z.unit? (.block d) = some u →
      List.Forall₂ (fun n v => z.index.get? (.value v) = some n) u.nodes ((t.list b v).valuesOf d))
    (hexitUnit : z.unit? .exit = y.unit? .exit) (hkeyed : ∀ k u, z.unit? k = some u → u.key = k)
    (hleads : ∀ a b label, z.Leads a b label ↔ y.Leads a b label)
    (hgoverns : ∀ a b, z.Governs a b ↔ y.Governs a b) :
    { t.list b v with blocks := bs }.Shows x f z := by
  -- the key is new, so what was found in the index is found there as before
  have hold : ∀ {j i}, y.index.get? j = some i → z.index.get? j = some i := by
    intro j i hj
    rw [hi]
    exact get?_insert_of_get? hkey hj
  constructor
  case function => exact hf.trans h.function
  case blocks => exact hblocks
  case start => exact hs.trans h.start
  case entry =>
    obtain ⟨i, hi', hv⟩ := h.entry
    exact ⟨i, hentry.trans hi', hold hv⟩
  case nodes => exact hblock
  case keyed => exact hkeyed
  case index =>
    intro key
    rw [hi, OrderedMap.get?_insert]
    have hiff := h.index key
    unfold Keys at hiff ⊢
    simp only [list, List.mem_append, List.mem_singleton, Prod.mk.injEq]
    -- a key is that of the new value, or the old stage has it
    split
    · rename_i hk
      exact iff_of_true ⟨n, rfl⟩ (Or.inr (Or.inl ⟨b, v, Or.inr ⟨rfl, rfl⟩, hk⟩))
    · rename_i hk
      rw [hiff]
      constructor
      · rintro (hp | ⟨d, w, hm, hp⟩ | hp)
        · exact Or.inl hp
        · exact Or.inr (Or.inl ⟨d, w, Or.inl hm, hp⟩)
        · exact Or.inr (Or.inr hp)
      · rintro (hp | ⟨d, w, hm | ⟨_, rfl⟩, hp⟩ | hp)
        · exact Or.inl hp
        · exact Or.inr (Or.inl ⟨d, w, hm, hp⟩)
        · exact absurd hp hk
        · exact Or.inr (Or.inr hp)
  case exit =>
    rw [hexit, hexitUnit]
    refine h.exit.imp_right fun hp => ?_
    obtain ⟨i, u, kind, hn, hu, hun, ht, hi'⟩ := hp
    exact ⟨i, u, kind, hn, hu, hun, ht, hold hi'⟩
  case calls =>
    intro c
    rw [hc, h.calls]
    constructor <;> intro hp <;> obtain ⟨w, hw, hg⟩ := hp
    · exact ⟨w, hw, hold hg⟩
    · -- a call that is listed had its node before
      obtain ⟨d, hd⟩ := h.listed w hw
      obtain ⟨i, hi'⟩ := (h.index (.value w)).2 (Or.inr (Or.inl ⟨d, w, hd, rfl⟩))
      rw [hold hi'] at hg
      exact ⟨w, hw, hi'.trans hg⟩
  case listed =>
    intro w hw
    obtain ⟨d, hd⟩ := h.listed w hw
    exact ⟨d, List.mem_append_left _ hd⟩
  case leads => exact fun a b label => (hleads a b label).trans (h.leads a b label)
  case governs => exact fun a b => (hgoverns a b).trans (h.governs a b)

/-- The nodes of a unit stay those of its values when a key is new. -/
theorem Shows.nodes_insert {u : BlockUnit} (h : t.Shows x f y) (hkey : y.index.get? key = none)
    (hu : y.unit? (.block b) = some u) :
    List.Forall₂ (fun i v => (y.index.insert key n).get? (.value v) = some i) u.nodes
      (t.valuesOf b) :=
  (h.nodes b u hu).imp fun _ _ => get?_insert_of_get? hkey

/-- One more node at the end of a unit. -/
theorem Shows.list (h : t.Shows x f y) (hkey : y.index.get? (.value v) = none) :
    (t.list b v).Shows x f
      ({ y with index := y.index.insert (.value v) n }.modifyUnit (.block b) fun u =>
        { u with nodes := u.nodes ++ [n] }) := by
  have hunit := fun k => Graph.unit?_index y (y.index.insert (.value v) n) k
  have hnew : (y.index.insert (.value v) n).get? (.value v) = some n := by
    rw [OrderedMap.get?_insert, if_pos rfl]
  -- the unit of `b` has one node more, all other units are as they were
  refine h.give t.blocks hkey rfl rfl rfl rfl rfl rfl ?_ (fun d u hu => ?_) ?_
    (fun k u hu => ?_) ?_ ?_
  · exact (OrderedMap.keys_modify _ _ _).trans h.blocks
  · rw [Graph.unit?_modifyUnit, hunit] at hu
    rw [valuesOf_list]
    split at hu
    · rename_i hd
      cases hd
      obtain ⟨w, hw, rfl⟩ := Option.map_eq_some_iff.1 hu
      rw [if_pos rfl]
      exact List.rel_append (h.nodes_insert hkey hw) (.cons hnew .nil)
    · rename_i hd
      rw [if_neg fun he => hd (congrArg BlockKey.block he)]
      exact h.nodes_insert hkey hu
  · rw [Graph.unit?_modifyUnit, hunit, if_neg nofun]
  · obtain ⟨w, hw, hu'⟩ := Graph.exists_unit_of_modifyUnit hu
    rw [hunit] at hw
    rcases hu' with rfl | rfl
    · exact h.keyed k _ hw
    · exact h.keyed k w hw
  · intro a c label
    exact Graph.exists_mem_modifyUnit_of_eq BlockUnit.successors fun _ => rfl
  · intro a c
    exact Graph.exists_mem_modifyUnit_of_eq BlockUnit.controls fun _ => rfl

/-- A unit without edges that was not there. -/
theorem exists_mem_openUnit {β : Type} (edges : BlockUnit → OrderedSet β) {a : BlockKey} {c : β}
    (hnone : y.unit? k = none) (hempty : edges (.single k n) = .empty) :
    (∃ u, (y.openUnit k n).unit? a = some u ∧ c ∈ edges u) ↔
      ∃ u, y.unit? a = some u ∧ c ∈ edges u := by
  rw [Graph.unit?_openUnit]
  split
  · rename_i ha
    subst ha
    simp [hnone, hempty]
  · rfl

/-- One more unit, with its first node. -/
theorem Shows.openUnit (h : t.Shows x f y) (hkey : y.index.get? (.value v) = none)
    (hb : b ∉ t.blocks) (hnone : t.valuesOf b = []) : (t.openUnit b v).Shows x f
      ({ y with index := y.index.insert (.value v) n }.openUnit (.block b) n) := by
  have hunit := fun k => Graph.unit?_index y (y.index.insert (.value v) n) k
  have hnew : (y.index.insert (.value v) n).get? (.value v) = some n := by
    rw [OrderedMap.get?_insert, if_pos rfl]
  have hno : ({ y with index := y.index.insert (.value v) n } : Graph).unit? (.block b) = none := by
    rw [hunit]
    cases hu : y.unit? (.block b) with
    | none => rfl
    | some u => exact absurd (h.exists_unit.1 ⟨u, hu⟩) hb
  refine h.give (t.blocks ++ [b]) hkey rfl rfl rfl rfl rfl rfl ?_ (fun d u hu => ?_) ?_
    (fun k u hu => ?_) ?_ ?_
  · show (y.units.insert b (.single (.block b) n)).keys = _
    have hkeys : b ∉ y.units.keys := by rwa [h.blocks]
    rw [OrderedMap.keys_insert_of_not_mem hkeys, h.blocks]
  · rw [Graph.unit?_openUnit, hunit] at hu
    rw [valuesOf_list]
    split at hu
    · rename_i hd
      cases hd
      cases hu
      -- no value was placed in the block before, so the new one is the only one
      rw [if_pos rfl, hnone]
      exact .cons hnew .nil
    · rename_i hd
      rw [if_neg fun he => hd (congrArg BlockKey.block he)]
      exact h.nodes_insert hkey hu
  · rw [Graph.unit?_openUnit, hunit, if_neg nofun]
  · rw [Graph.unit?_openUnit, hunit] at hu
    split at hu
    · rename_i hk
      cases hu
      exact hk.symm
    · exact h.keyed k u hu
  · intro a c label
    exact (exists_mem_openUnit BlockUnit.successors hno rfl).trans Iff.rfl
  · intro a c
    exact (exists_mem_openUnit BlockUnit.controls hno rfl).trans Iff.rfl

/-- One more call on the list. -/
theorem Shows.call (h : t.Shows x f y) (hn : y.index.get? (.value v) = some n)
    (hv : (b, v) ∈ t.values) :
    (t.call v).Shows x f { y with callNodes := y.callNodes.insert n } := by
  refine ⟨h.function, h.blocks, h.start, h.entry, h.nodes, h.keyed, h.index, h.exit, fun c => ?_,
    fun w hw => ?_, h.leads, h.governs⟩
  · rw [OrderedSet.mem_insert, h.calls]
    simp only [Stage.call, List.mem_append, List.mem_singleton]
    constructor
    · rintro (⟨w, hw, hc⟩ | rfl)
      · exact ⟨w, Or.inl hw, hc⟩
      · exact ⟨v, Or.inr rfl, hn⟩
    · rintro ⟨w, hw | rfl, hc⟩
      · exact Or.inl ⟨w, hw, hc⟩
      · exact Or.inr (Option.some.inj (hc.symm.trans hn))
  · rcases List.mem_append.1 hw with hw | hw
    · exact h.listed w hw
    · rw [List.mem_singleton.1 hw]
      exact ⟨b, hv⟩

/-- The first block of the function. -/
theorem Shows.begin (h : t.Shows x f y) (start? : Option BlockId) :
    { t with start? := start? }.Shows x f { y with entryBlock? := start? } :=
  ⟨h.function, h.blocks, rfl, h.entry, h.nodes, h.keyed, h.index, h.exit, h.calls, h.listed,
    h.leads, h.governs⟩

/-- The exit in its unit. -/
theorem Shows.addExit {kind : ExitKind} (h : t.Shows x f y) (ht : t.exit? = none)
    (hkey : y.index.get? (.exit f kind) = none) : { t with exit? := some kind }.Shows x f
      ({ y with index := y.index.insert (.exit f kind) n }.openUnit .exit n) := by
  have hunit := fun k => Graph.unit?_index y (y.index.insert (.exit f kind) n) k
  -- there was no unit of an exit, since the stage before has no exit
  have hno : ({ y with index := y.index.insert (.exit f kind) n } : Graph).unit? .exit = none := by
    rw [hunit]
    rcases h.exit with ⟨_, hu, _⟩ | ⟨_, _, _, _, _, _, hs, _⟩
    · exact hu
    · rw [ht] at hs
      cases hs
  constructor
  case function => exact h.function
  case blocks => exact h.blocks
  case start => exact h.start
  case entry =>
    obtain ⟨i, hi, hv⟩ := h.entry
    exact ⟨i, hi, get?_insert_of_get? hkey hv⟩
  case nodes =>
    intro d u hu
    rw [Graph.unit?_openUnit, if_neg nofun, hunit] at hu
    exact h.nodes_insert hkey hu
  case keyed =>
    intro k u hu
    rw [Graph.unit?_openUnit, hunit] at hu
    split at hu
    · rename_i hk
      cases hu
      exact hk.symm
    · exact h.keyed k u hu
  case index =>
    intro key
    show (∃ i, (y.index.insert (.exit f kind) n).get? key = some i) ↔ _
    rw [OrderedMap.get?_insert]
    have hiff := h.index key
    unfold Keys at hiff ⊢
    -- the old stage has no key of an exit, the new one has this one alone
    rw [ht] at hiff
    split
    · rename_i hk
      exact iff_of_true ⟨n, rfl⟩ (Or.inr (Or.inr ⟨kind, rfl, hk⟩))
    · rename_i hk
      rw [hiff]
      refine or_congr_right (or_congr_right (iff_of_false ?_ ?_))
      · rintro ⟨_, hs, _⟩
        cases hs
      · rintro ⟨_, hs, he⟩
        cases hs
        exact hk he
  case exit =>
    refine Or.inr ⟨n, .single .exit n, kind, rfl, rfl, rfl, rfl, ?_⟩
    show (y.index.insert (.exit f kind) n).get? (.exit f kind) = some n
    rw [OrderedMap.get?_insert, if_pos rfl]
  case calls =>
    intro c
    show c ∈ y.callNodes ↔ ∃ v ∈ t.calls, (y.index.insert (.exit f kind) n).get? (.value v) = some c
    simp only [OrderedMap.get?_insert, reduceCtorEq, if_false]
    exact h.calls c
  case listed => exact h.listed
  case leads =>
    intro a c label
    exact (exists_mem_openUnit BlockUnit.successors hno rfl).trans (h.leads a c label)
  case governs =>
    intro a c
    exact (exists_mem_openUnit BlockUnit.controls hno rfl).trans (h.governs a c)

/-- Units are changed in their edges alone. -/
theorem Shows.edges {e : BlockUnit → BlockUnit} (h : t.Shows x f y)
    (hk : ∀ u, (e u).key = u.key) (hn : ∀ u, (e u).nodes = u.nodes)
    {L : BlockKey → BlockKey → Nat → Prop} {C : BlockKey → BlockKey → Prop}
    (hleads : ∀ a b label, (y.modifyUnit k e).Leads a b label ↔ L a b label)
    (hgoverns : ∀ a b, (y.modifyUnit k e).Governs a b ↔ C a b) :
    { t with leads := L, governs := C }.Shows x f (y.modifyUnit k e) := by
  -- apart from its edges a unit is what it was
  have hunit : ∀ {c u}, (y.modifyUnit k e).unit? c = some u →
      ∃ w, y.unit? c = some w ∧ u.key = w.key ∧ u.nodes = w.nodes := by
    intro c u hu
    obtain ⟨w, hw, rfl | rfl⟩ := Graph.exists_unit_of_modifyUnit hu
    · exact ⟨_, hw, rfl, rfl⟩
    · exact ⟨w, hw, hk w, hn w⟩
  constructor
  case function => cases k <;> exact h.function
  case blocks => cases k <;> simp [Graph.modifyUnit, h.blocks]
  case start => rw [Graph.entryBlock?_modifyUnit, h.start]
  case entry =>
    rw [Graph.entryNode?_modifyUnit, Graph.index_modifyUnit]
    exact h.entry
  case nodes =>
    intro d u hu
    obtain ⟨w, hw, _, hnodes⟩ := hunit hu
    rw [Graph.index_modifyUnit, hnodes]
    exact h.nodes d w hw
  case keyed =>
    intro c u hu
    obtain ⟨w, hw, hkey, _⟩ := hunit hu
    rw [hkey]
    exact h.keyed c w hw
  case index =>
    rw [Graph.index_modifyUnit]
    exact h.index
  case exit =>
    rw [Graph.exitNode?_modifyUnit, Graph.index_modifyUnit]
    rcases h.exit with ⟨hx, hu, ht⟩ | ⟨i, u, kind, hx, hu, hun, ht, hi⟩
    · refine Or.inl ⟨hx, ?_, ht⟩
      rw [Graph.unit?_modifyUnit, hu]
      split <;> rfl
    · obtain ⟨w, hw⟩ := Graph.exists_unit_modifyUnit hu k e
      obtain ⟨u', hu', _, hnodes⟩ := hunit hw
      rw [hu] at hu'
      cases hu'
      exact Or.inr ⟨i, w, kind, hx, hw, hnodes.trans hun, ht, hi⟩
  case calls =>
    rw [Graph.callNodes_modifyUnit, Graph.index_modifyUnit]
    exact h.calls
  case listed => exact h.listed
  case leads => exact hleads
  case governs => exact hgoverns

/-- One more edge between units. -/
theorem Shows.lead {a c : BlockKey} {label : Nat} {u : BlockUnit} (h : t.Shows x f y)
    (hu : y.unit? a = some u) : (t.lead a c label).Shows x f (y.lead a c label) := by
  have hfirst := h.edges (k := a)
    (e := fun u => { u with successors := u.successors.insert ⟨c, label⟩ })
    (fun _ => rfl) (fun _ => rfl) (fun _ _ _ => Iff.rfl) fun _ _ => Iff.rfl
  refine hfirst.edges (k := c)
    (e := fun u => { u with predecessors := u.predecessors.insert ⟨a, label⟩ })
    (fun _ => rfl) (fun _ => rfl) (fun d d' l => ?_) fun d d' => ?_
  · exact (Graph.leads_lead hu).trans (or_congr_left (h.leads d d' l))
  · rw [← h.governs]
    unfold Graph.Governs
    rw [Graph.exists_mem_modifyUnit_of_eq BlockUnit.controls,
      Graph.exists_mem_modifyUnit_of_eq BlockUnit.controls]
    all_goals exact fun _ => rfl

/-- One more unit under the control of another. -/
theorem Shows.govern {a c : BlockKey} {u : BlockUnit} (h : t.Shows x f y)
    (hu : y.unit? a = some u) : (t.govern a c).Shows x f (y.govern a c) := by
  have hfirst := h.edges (k := a) (e := fun u => { u with controls := u.controls.insert c })
    (fun _ => rfl) (fun _ => rfl) (fun _ _ _ => Iff.rfl) fun _ _ => Iff.rfl
  refine hfirst.edges (k := c) (e := fun u => { u with controlledBy := u.controlledBy.insert a })
    (fun _ => rfl) (fun _ => rfl) (fun d d' l => ?_) fun d d' => ?_
  · rw [← h.leads]
    unfold Graph.Leads
    rw [Graph.exists_mem_modifyUnit_of_eq BlockUnit.successors,
      Graph.exists_mem_modifyUnit_of_eq BlockUnit.successors]
    all_goals exact fun _ => rfl
  · exact (Graph.governs_govern hu).trans (or_congr_left (h.governs d d'))

/-! ## Decisions -/

/-- A unit has more than one edge. -/
def Branches (t : Stage) (a : BlockKey) : Prop :=
  ∃ b l c k, t.leads a b l ∧ t.leads a c k ∧ ¬ (b = c ∧ l = k)

/-- A unit has an edge to itself. -/
def Loops (t : Stage) (a : BlockKey) : Prop := ∃ l, t.leads a a l

theorem Shows.leads_iff_mem {u : BlockUnit} {c : BlockKey} {label : Nat} (h : t.Shows x f y)
    (hu : y.unit? k = some u) : t.leads k c label ↔ ⟨c, label⟩ ∈ u.successors := by
  rw [← h.leads, Graph.leads_iff_mem hu]

/-- A unit decides where control goes if it has more than one edge. -/
theorem Shows.decides_iff {u : BlockUnit} (h : t.Shows x f y) (hu : y.unit? k = some u) :
    u.decides = true ↔ t.Branches k := by
  unfold BlockUnit.decides Branches
  rw [decide_eq_true_iff, OrderedSet.one_lt_size_iff]
  simp only [h.leads_iff_mem hu]
  constructor
  · rintro ⟨⟨b, l⟩, hb, ⟨c, j⟩, hc, hne⟩
    exact ⟨b, l, c, j, hb, hc, fun he => hne (by rw [he.1, he.2])⟩
  · rintro ⟨b, l, c, j, hb, hc, hne⟩
    exact ⟨_, hb, _, hc, fun he => hne (by simpa using he)⟩

/-- It goes back to itself if it has an edge to itself. -/
theorem Shows.hasSelfLoop_iff {u : BlockUnit} (h : t.Shows x f y) (hu : y.unit? k = some u) :
    u.hasSelfLoop = true ↔ t.Loops k := by
  unfold BlockUnit.hasSelfLoop Loops
  rw [List.any_eq_true]
  simp only [h.leads_iff_mem hu, decide_eq_true_eq, h.keyed k u hu]
  constructor
  · rintro ⟨⟨b, l⟩, hm, rfl⟩
    exact ⟨l, hm⟩
  · rintro ⟨l, hm⟩
    exact ⟨⟨k, l⟩, hm, rfl⟩

end Stage

end Sdg
