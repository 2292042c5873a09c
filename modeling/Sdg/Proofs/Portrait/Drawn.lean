import Mathlib.Data.Set.Insert
import Sdg.Proofs.Formals.Access
import Sdg.Proofs.Portrait.Stage

/-!
# What is drawn of a body

What a complete stage tells of the function: which edges its units have, which of them control which
others, and that there is a node for each instruction and no other. A graph that shows a complete
stage is `Drawn`. Whatever is built between two registries draws the graphs that it makes and leaves
the layout of all others as it is, which is a `Course` of building.

Main results:

* `Stage.Acted.visit` — the visit of one more instruction;
* `Registry.Course.trans` — courses compose, also where a graph of the first is old to the second;
* `Registry.Shows.course` — a graph that is under way stays at its stage while others are built.
-/

namespace Sdg

namespace Module

/-- Whether the value `v` is a return. -/
def IsReturn (m : Module) (v : ValueId) : Prop :=
  ∃ i value?, m.instruction? v = .ok (some i) ∧ i.op = .ret value?

/-- Whether the value `v` is a call. -/
def IsCall (m : Module) (v : ValueId) : Prop := ∃ callee args, m.IsCallOf v callee args

/-- Whether a block has a return. -/
def Returns (m : Module) (b : BlockId) : Prop :=
  ∃ z v, m.block b = .ok z ∧ v ∈ z.instructions ∧ m.IsReturn v

/-- The labelled edges that the units of a function have: to each successor one with its position,
and from a block with a return one to the exit. -/
inductive UnitEdge (m : Module) (x : Function) : BlockKey → BlockKey → Nat → Prop
  | flow {b s : BlockId} {ss : List BlockId} {i : Nat} : b ∈ x.blocks → m.successors b = .ok ss →
      ss[i]? = some s → UnitEdge m x (.block b) (.block s) i
  | exit {b : BlockId} : b ∈ x.blocks → m.Returns b → UnitEdge m x (.block b) .exit exitLabel

/-- A unit of the function decides where control goes: it has more than one edge. -/
def Branches (m : Module) (x : Function) (a : BlockKey) : Prop :=
  ∃ b l c k, m.UnitEdge x a b l ∧ m.UnitEdge x a c k ∧ ¬ (b = c ∧ l = k)

variable {m : Module} {v : ValueId} {i : Instruction}

theorem isReturn_iff (hi : m.instruction? v = .ok (some i)) :
    m.IsReturn v ↔ ∃ value?, i.op = .ret value? := by
  constructor
  · intro hp
    obtain ⟨j, value?, hj, hop⟩ := hp
    rw [hi] at hj
    cases hj
    exact ⟨value?, hop⟩
  · intro hp
    obtain ⟨value?, hop⟩ := hp
    exact ⟨i, value?, hi, hop⟩

theorem isCall_iff (hi : m.instruction? v = .ok (some i)) :
    m.IsCall v ↔ ∃ callee args, i.op = .call callee args := by
  constructor
  · intro hp
    obtain ⟨callee, args, j, hj, hop⟩ := hp
    rw [hi] at hj
    cases hj
    exact ⟨callee, args, hop⟩
  · intro hp
    obtain ⟨callee, args, hop⟩ := hp
    exact ⟨callee, args, i, hi, hop⟩

end Module

/-- Which units of a function control which others: those that decide control their scope and, if
they go back to themselves, themselves, each as the settings ask for. -/
inductive Setup.UnitControl (e : Setup) (f : FunctionId) (x : Function) :
    BlockKey → BlockKey → Prop
  | scope {b c : BlockId} {scope : BlockId → List BlockId} : e.settings.controlScopes = true →
      e.program.Branches x (.block b) → e.scopes e.program f = .ok scope → c ∈ scope b →
      UnitControl e f x (.block b) (.block c)
  | loop {b : BlockId} {l : Nat} : e.settings.selfLoops = true → e.program.Branches x (.block b) →
      e.program.UnitEdge x (.block b) (.block b) l → UnitControl e f x (.block b) (.block b)

namespace Stage

variable {m : Module} {e : Setup} {t : Stage} {x : Function} {f : FunctionId} {y : Graph}
  {b : BlockId} {v : ValueId} {i : Instruction}

/-! ## Visits -/

/-- A return in a block: the exit is made for the first one. -/
def leave (t : Stage) (b : BlockId) : Stage :=
  { t.lead (.block b) .exit exitLabel with exit? := t.exit?.or (some .returns) }

/-- What the visit of an instruction does besides giving it a node. -/
def act (t : Stage) (b : BlockId) (v : ValueId) : Operation → Stage
  | .call _ _ => t.call v
  | .ret _ => t.leave b
  | _ => t

/-- The visit of an instruction moves no values and no blocks. -/
theorem act_places (t : Stage) (b : BlockId) (v : ValueId) (op : Operation) :
    (t.act b v op).values = t.values ∧ (t.act b v op).blocks = t.blocks ∧
      (t.act b v op).start? = t.start? := by
  cases op <;> exact ⟨rfl, rfl, rfl⟩

/-- All values that are listed were visited, and no more was done than that. -/
structure Acted (m : Module) (t : Stage) : Prop where
  placed : ∀ b v, (b, v) ∈ t.values → b ∈ t.blocks
  calls : ∀ v, v ∈ t.calls ↔ (∃ b, (b, v) ∈ t.values) ∧ m.IsCall v
  exit : t.exit? = none ∧ (∀ b v, (b, v) ∈ t.values → ¬ m.IsReturn v) ∨
    t.exit? = some .returns ∧ ∃ b v, (b, v) ∈ t.values ∧ m.IsReturn v
  leads : ∀ a c l, t.leads a c l ↔
    c = .exit ∧ l = exitLabel ∧ ∃ b v, a = .block b ∧ (b, v) ∈ t.values ∧ m.IsReturn v
  governs : ∀ a c, ¬ t.governs a c

theorem Acted.start (m : Module) : Stage.start.Acted m where
  placed := nofun
  calls := by simp [Stage.start]
  exit := Or.inl ⟨rfl, nofun⟩
  leads := by simp [Stage.start]
  governs := nofun

theorem mem_list {d : BlockId} {w : ValueId} :
    (d, w) ∈ (t.list b v).values ↔ (d, w) ∈ t.values ∨ d = b ∧ w = v := by
  simp [list]

theorem mem_list_self : (b, v) ∈ (t.list b v).values := mem_list.2 (Or.inr ⟨rfl, rfl⟩)

/-- Of what the new value is not, there are the values before. -/
theorem mem_list_and_iff {P : ValueId → Prop} (hno : ¬ P v) {d : BlockId} {w : ValueId} :
    (d, w) ∈ (t.list b v).values ∧ P w ↔ (d, w) ∈ t.values ∧ P w := by
  rw [mem_list]
  refine and_congr_left fun hw => or_iff_left ?_
  rintro ⟨_, rfl⟩
  exact hno hw

namespace Acted

variable (h : t.Acted m)

include h

theorem placed_list {bs : List BlockId} (hbs : ∀ d ∈ t.blocks, d ∈ bs) (hb : b ∈ bs) :
    ∀ d w, (d, w) ∈ (t.list b v).values → d ∈ bs := by
  intro d w hp
  rcases mem_list.1 hp with hp | ⟨rfl, _⟩
  · exact hbs d (h.placed d w hp)
  · exact hb

/-- What is no call does not change the calls. -/
theorem calls_list (hno : ¬ m.IsCall v) (w : ValueId) :
    w ∈ t.calls ↔ (∃ d, (d, w) ∈ (t.list b v).values) ∧ m.IsCall w := by
  rw [h.calls, ← exists_and_right, ← exists_and_right]
  exact exists_congr fun d => (mem_list_and_iff hno).symm

theorem calls_call (hv : m.IsCall v) (w : ValueId) :
    w ∈ t.calls ++ [v] ↔ (∃ d, (d, w) ∈ (t.list b v).values) ∧ m.IsCall w := by
  rw [List.mem_append, List.mem_singleton, h.calls]
  constructor
  · rintro (⟨⟨d, hd⟩, hw⟩ | rfl)
    · exact ⟨⟨d, mem_list.2 (Or.inl hd)⟩, hw⟩
    · exact ⟨⟨b, mem_list_self⟩, hv⟩
  · rintro ⟨⟨d, hd⟩, hw⟩
    rcases mem_list.1 hd with hd | ⟨_, rfl⟩
    · exact Or.inl ⟨⟨d, hd⟩, hw⟩
    · exact Or.inr rfl

/-- What is no return does not make the exit. -/
theorem exit_list (hno : ¬ m.IsReturn v) :
    t.exit? = none ∧ (∀ d w, (d, w) ∈ (t.list b v).values → ¬ m.IsReturn w) ∨
      t.exit? = some .returns ∧ ∃ d w, (d, w) ∈ (t.list b v).values ∧ m.IsReturn w := by
  refine h.exit.imp (fun hp => ⟨hp.1, fun d w hw hr => ?_⟩) fun hp => ⟨hp.1, ?_⟩
  · obtain ⟨hold, _⟩ := (mem_list_and_iff hno).1 ⟨hw, hr⟩
    exact hp.2 d w hold hr
  · obtain ⟨_, d, w, hold⟩ := hp
    exact ⟨d, w, (mem_list_and_iff hno).2 hold⟩

theorem exit_leave : t.exit?.or (some .returns) = some .returns := by
  rcases h.exit with ⟨hn, _⟩ | ⟨hs, _⟩
  · rw [hn]
    rfl
  · rw [hs]
    rfl

/-- What is no return does not lead to the exit. -/
theorem leads_list (hno : ¬ m.IsReturn v) (a c : BlockKey) (l : Nat) : t.leads a c l ↔
    c = .exit ∧ l = exitLabel ∧
      ∃ d w, a = .block d ∧ (d, w) ∈ (t.list b v).values ∧ m.IsReturn w := by
  rw [h.leads]
  refine and_congr_right fun _ => and_congr_right fun _ => exists_congr fun d =>
    exists_congr fun w => and_congr_right fun _ => ?_
  exact (mem_list_and_iff hno).symm

theorem leads_leave (hv : m.IsReturn v) (a c : BlockKey) (l : Nat) :
    t.leads a c l ∨ a = .block b ∧ c = .exit ∧ l = exitLabel ↔ c = .exit ∧ l = exitLabel ∧
      ∃ d w, a = .block d ∧ (d, w) ∈ (t.list b v).values ∧ m.IsReturn w := by
  rw [h.leads]
  constructor
  · rintro (⟨hc, hl, d, w, ha, hw, hr⟩ | ⟨ha, hc, hl⟩)
    · exact ⟨hc, hl, d, w, ha, mem_list.2 (Or.inl hw), hr⟩
    · exact ⟨hc, hl, b, v, ha, mem_list_self, hv⟩
  · rintro ⟨hc, hl, d, w, ha, hw, hr⟩
    rcases mem_list.1 hw with hw | ⟨rfl, rfl⟩
    · exact Or.inl ⟨hc, hl, d, w, ha, hw, hr⟩
    · exact Or.inr ⟨ha, hc, hl⟩

/-- **Visits.** The visit of one more instruction, in a block that is there or comes with it. -/
theorem visit {bs : List BlockId} (hi : m.instruction? v = .ok (some i))
    (hbs : ∀ d ∈ t.blocks, d ∈ bs) (hb : b ∈ bs) :
    (({ t.list b v with blocks := bs }).act b v i.op).Acted m := by
  have hret := m.isReturn_iff hi
  have hcall := m.isCall_iff hi
  have hplaced := h.placed_list (v := v) hbs hb
  -- an instruction is a call, or a return, or nothing of both
  cases hop : i.op with
  | call callee args =>
    have hv : m.IsCall v := hcall.2 ⟨callee, args, hop⟩
    have hno : ¬ m.IsReturn v := by simp [hret, hop]
    exact ⟨hplaced, h.calls_call hv, h.exit_list hno, h.leads_list hno, h.governs⟩
  | ret value? =>
    have hv : m.IsReturn v := hret.2 ⟨value?, hop⟩
    have hno : ¬ m.IsCall v := by simp [hcall, hop]
    exact ⟨hplaced, h.calls_list hno, Or.inr ⟨h.exit_leave, b, v, mem_list_self, hv⟩,
      h.leads_leave hv, h.governs⟩
  | _ =>
    have hno : ¬ m.IsReturn v := by simp [hret, hop]
    have hno' : ¬ m.IsCall v := by simp [hcall, hop]
    exact ⟨hplaced, h.calls_list hno', h.exit_list hno, h.leads_list hno, h.governs⟩

end Acted

/-! ## The last stage -/

/-- The stage that a finished build comes to. -/
structure Complete (e : Setup) (f : FunctionId) (x : Function) (t : Stage) : Prop where
  function : e.program.function f = .ok x
  blocks : t.blocks = x.blocks
  start : t.start? = x.entryBlock?
  values : ∀ b ∈ x.blocks, ∃ z, e.program.block b = .ok z ∧ t.valuesOf b = z.instructions
  placed : ∀ b v, (b, v) ∈ t.values → b ∈ x.blocks
  calls : ∀ v, v ∈ t.calls ↔ (∃ b, (b, v) ∈ t.values) ∧ e.program.IsCall v
  exit : t.exit? = some .unreachable ∧ (∀ b v, (b, v) ∈ t.values → ¬ e.program.IsReturn v) ∨
    t.exit? = some .returns ∧ ∃ b v, (b, v) ∈ t.values ∧ e.program.IsReturn v
  few : ∀ b ∈ x.blocks, ∃ ss, e.program.successors b = .ok ss ∧ ss.length ≤ exitLabel
  leads : ∀ a c l, t.leads a c l ↔ e.program.UnitEdge x a c l
  governs : ∀ a c, t.governs a c ↔ e.UnitControl f x a c

/-- The values that are listed are those of the body. -/
theorem Complete.inBody_iff (h : t.Complete e f x) :
    e.program.InBody f v ↔ ∃ b, (b, v) ∈ t.values := by
  constructor
  · intro hp
    obtain ⟨x', b, z, hx, hb, hz, hv⟩ := hp
    rw [h.function] at hx
    cases hx
    obtain ⟨z', hz', hvalues⟩ := h.values b hb
    rw [hz] at hz'
    cases hz'
    exact ⟨b, mem_valuesOf.1 (hvalues ▸ hv)⟩
  · intro hp
    obtain ⟨b, hb⟩ := hp
    have hmem := h.placed b v hb
    obtain ⟨z, hz, hvalues⟩ := h.values b hmem
    exact ⟨x, b, z, h.function, hmem, hz, hvalues ▸ mem_valuesOf.2 hb⟩

theorem Complete.branches_iff (h : t.Complete e f x) {a : BlockKey} :
    t.Branches a ↔ e.program.Branches x a := by
  simp only [Branches, Module.Branches, h.leads]

end Stage

/-! ## Courses of building -/

namespace Registry

variable {e : Setup} {r s u : Registry} {g : GraphId} {t : Stage} {x : Function} {f : FunctionId}
  {y z : Graph} {X Y : Set GraphId}

/-- The entry of the graph was made, and stands in no unit. -/
def Aside (s : Registry) (y : Graph) : Prop :=
  ∀ n, y.entryNode? = some n → n.index < s.nodes.next ∧ ∀ w, s.node? n = some w → w.block? = none

theorem Aside.ages (h : r.Aside y) (ha : r.Ages s) (hz : z.entryNode? = y.entryNode?) :
    s.Aside z := by
  intro n hn
  obtain ⟨hlt, hblock⟩ := h n (hz ▸ hn)
  refine ⟨Nat.lt_of_lt_of_le hlt ha.next_le.1, fun w hw => ?_⟩
  obtain ⟨w', hw', hsame⟩ := ha.node hlt hw
  exact hsame.block?.trans (hblock w' hw')

/-- The graph, which looks like `y`, is drawn as its function and the setup ask for. -/
def Drawn (e : Setup) (s : Registry) (y : Graph) : Prop :=
  s.Aside y ∧ ∃ (t : Stage) (x : Function), t.Shows x y.function y ∧ t.Complete e y.function x

/-- What is drawn stays so. -/
theorem Drawn.ages (h : r.Drawn e y) (ha : r.Ages s) (hz : z.layout = y.layout) :
    s.Drawn e z := by
  obtain ⟨haside, t, x, hshows, hc⟩ := h
  have hf : z.function = y.function := Graph.eq_of_layout Graph.function (fun _ => rfl) hz
  refine ⟨haside.ages ha (Graph.eq_of_layout Graph.entryNode? (fun _ => rfl) hz), t, x, ?_, ?_⟩
  · rw [hf]
    exact hshows.of_layout hz
  · rwa [hf]

/-- What building leads to: graphs that were there keep their layout and graphs that come are drawn,
but for those in `X`, which are under way. -/
structure Course (e : Setup) (X : Set GraphId) (r s : Registry) : Prop where
  ages : r.Ages s
  kept : ∀ g ∉ X, ∀ y z, r.graph? g = some y → s.graph? g = some z → z.layout = y.layout
  drawn : ∀ g ∉ X, ∀ z, r.graph? g = none → s.graph? g = some z → s.Drawn e z
  pool : s.pool = r.pool

/-- Where no graph is new or in another layout. -/
theorem Calm.course (h : r.Calm s) : Course e X r s where
  ages := h.ages
  kept g _ y z hy hz := by
    obtain ⟨y', hy', he⟩ := h.graph g z hz
    rw [hy] at hy'
    cases hy'
    exact he
  drawn g _ z hn hz := by
    obtain ⟨y, hy, _⟩ := h.graph g z hz
    rw [hn] at hy
    cases hy
  pool := h.pool

theorem Course.refl (e : Setup) (X : Set GraphId) (r : Registry) : Course e X r r :=
  (Calm.refl r).course

/-- Courses compose. -/
theorem Course.trans (h : Course e X r s) (h' : Course e X s u) : Course e X r u where
  ages := h.ages.trans h'.ages
  kept g hg y z hy hz := by
    -- the graph was live all the time
    obtain ⟨w, hw, _⟩ := h'.ages.graph
      (Nat.lt_of_lt_of_le (lt_of_graph? hy) h.ages.next_le.2) hz
    exact (h'.kept g hg w z hw hz).trans (h.kept g hg y w hy hw)
  drawn g hg z hn hz := by
    cases hw : s.graph? g with
    | none => exact h'.drawn g hg z hw hz
    | some w => exact (h.drawn g hg w hn hw).ages h'.ages (h'.kept g hg w z hw hz)
  pool := h'.pool.trans h.pool

/-- More graphs may be under way. -/
theorem Course.mono (h : Course e X r s) (hXY : X ⊆ Y) : Course e Y r s :=
  ⟨h.ages, fun g hg => h.kept g fun hX => hg (hXY hX), fun g hg => h.drawn g fun hX => hg (hXY hX),
    h.pool⟩

/-- What is done to the graph that is under way. -/
theorem Course.of_others (ha : r.Ages s) (hg : ∀ h, h ≠ g → s.graph? h = r.graph? h)
    (hp : s.pool = r.pool) : Course e {g} r s where
  ages := ha
  kept h hh y z hy hz := by
    rw [hg h hh, hy] at hz
    cases hz
    rfl
  drawn h hh z hn hz := by
    rw [hg h hh, hn] at hz
    cases hz
  pool := hp

/-! ## Graphs under way -/

/-- The graph `g` of the function `f` is at the stage `t`, if it is there. -/
def Shows (s : Registry) (g : GraphId) (x : Function) (f : FunctionId) (t : Stage) : Prop :=
  g.index < s.graphs.next ∧ ∀ y, s.graph? g = some y → t.Shows x f y ∧ s.Aside y

/-- A graph that is under way stays at its stage while others are built. -/
theorem Shows.course (h : r.Shows g x f t) (hc : Course e ∅ r s) : s.Shows g x f t := by
  obtain ⟨hlt, hshows⟩ := h
  refine ⟨Nat.lt_of_lt_of_le hlt hc.ages.next_le.2, fun z hz => ?_⟩
  obtain ⟨y, hy, _⟩ := hc.ages.graph hlt hz
  obtain ⟨hs, haside⟩ := hshows y hy
  have hlayout := hc.kept g (Set.notMem_empty g) y z hy hz
  exact ⟨hs.of_layout hlayout,
    haside.ages hc.ages (Graph.eq_of_layout Graph.entryNode? (fun _ => rfl) hlayout)⟩

/-- A step of the build itself. -/
theorem Shows.step {t' : Stage} (h : r.Shows g x f t) (ha : r.Ages s)
    (hy : r.graph? g = some y) (hz : s.graph? g = some z) (hentry : z.entryNode? = y.entryNode?)
    (hs : t.Shows x f y → t'.Shows x f z) : s.Shows g x f t' := by
  obtain ⟨hlt, hshows⟩ := h
  refine ⟨Nat.lt_of_lt_of_le hlt ha.next_le.2, fun z' hz' => ?_⟩
  rw [hz] at hz'
  cases hz'
  obtain ⟨hsy, haside⟩ := hshows y hy
  exact ⟨hs hsy, haside.ages ha hentry⟩

end Registry

end Sdg
