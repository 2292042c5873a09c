import Sdg.Proofs.Building.Bodies
import Sdg.Proofs.Safety.Advances
import Sdg.Proofs.Safety.Blame

/-!
# Bodies under way

The visit of a body, told as what happens to the body of its graph: a unit comes with its first
node, each node of a unit is visited right after it was made, and a return controls the exit when
its visit is over. `Registry.Underway` is what holds between two visits. It also tells what was
visited so far, and so which keys are in use and which units are there. `Visiting` adds what else a
visit relies on, and `Visits` is what it does.

Main results:

* `Registry.Underway.openBlock`, `Registry.Underway.append`, `Registry.Underway.openExit`,
  `Registry.Underway.lead` — the steps of a visit keep the body under way;
* `Visiting.after` — after one visit the next may begin.
-/

namespace Sdg

open Registry

/-- The graph has units for the blocks of `bs` alone, and in its index it has nothing but the
function, instructions of `vs`, and the exit if there is one. The block that it begins with is
`start?`. -/
structure Graph.Visited (y : Graph) (x : Function) (bs : List BlockId) (vs : List ValueId)
    (start? : Option BlockId := none) : Prop where
  units : ∀ b, (∃ u, y.unit? (.block b) = some u) ↔ b ∈ bs
  keys : ∀ key n, y.index.get? key = some n → key = .value x.value ∨
    (∃ v ∈ vs, key = .value v) ∨ ∃ kind, key = .exit y.function kind ∧ y.exitNode? ≠ none
  start : y.entryBlock? = start?

/-- The body of the function `x` is being visited for the graph `g`: what is there is a draft, and
the blocks `bs` and the instructions `vs` were come to. -/
def Registry.Underway (m : Module) (r : Registry) (g : GraphId) (x : Function) (bs : List BlockId)
    (vs : List ValueId) (open? : Option NodeId := none) (start? : Option BlockId := none) : Prop :=
  ∃ y, r.graph? g = some y ∧ Draft m r g y open? ∧ y.Visited x bs vs start?

section

variable {m : Module} {r s : Registry} {g : GraphId} {y z : Graph} {x : Function}
  {bs : List BlockId} {vs : List ValueId} {open? : Option NodeId} {start? : Option BlockId}
  {n : NodeId} {v : ValueId} {b : BlockId}

theorem Graph.Visited.of_sameBody (h : y.Visited x bs vs start?) (hb : y.SameBody z) :
    z.Visited x bs vs start? where
  units b := by
    rw [← h.units b]
    refine ⟨fun hp => ?_, fun hp => ?_⟩
    · obtain ⟨u, hu⟩ := hp
      obtain ⟨w, hw, _⟩ := hb.exists_unit hu
      exact ⟨w, hw⟩
    · obtain ⟨u, hu⟩ := hp
      obtain ⟨w, hw, _⟩ := hb.symm.exists_unit hu
      exact ⟨w, hw⟩
  keys key n hn := by
    rw [hb.function, hb.exitNode?]
    exact h.keys key n (hb.index ▸ hn)
  start := hb.entryBlock?.trans h.start

theorem Registry.Underway.advance (h : r.Underway m g x bs vs open? start?) (ha : Advances m r s) :
    s.Underway m g x bs vs open? start? := by
  obtain ⟨y, hy, hd, hv⟩ := h
  obtain ⟨y', hy', hb⟩ := ha.exists_graph hy
  exact ⟨y', hy', hd.frame ha.grows hb, hv.of_sameBody hb⟩

theorem Registry.Underway.hasUnit (h : r.Underway m g x bs vs open? start?) (hb : b ∈ bs) :
    r.HasUnit g b := by
  obtain ⟨y, hy, _, hv⟩ := h
  obtain ⟨u, hu⟩ := (hv.units b).2 hb
  exact ⟨y, u, hy, hu⟩

/-- The graph can be called in the meantime. -/
theorem Registry.Underway.ready (h : r.Underway m g x bs vs open? start?) :
    ∀ k ∈ ({g} : Set GraphId), ∀ y, r.graph? k = some y → y.Ready m := by
  rintro k rfl y hy
  obtain ⟨y', hy', hd, _⟩ := h
  rw [hy] at hy'
  cases hy'
  exact hd.ready

/-- The visit of an instruction that is no return is over whenever its node is there. -/
theorem Registry.Underway.close {i : Instruction} (h : r.Underway m g x bs vs (some n))
    (hn : Work.Indexed r g (.value v) n) (hi : m.instruction? v = .ok (some i))
    (hno : ∀ v?, i.op ≠ .ret v?) : r.Underway m g x bs vs := by
  obtain ⟨y, hy, hd, hv⟩ := h
  obtain ⟨z, _, hz, hk, _⟩ := hn
  refine ⟨y, hy, hd.close ⟨z, some i.op, hz, ?_, fun v? hret => ?_⟩, hv⟩
  · rw [hk, Module.operation?_of_instruction? hi]
  · exact absurd (Option.some.inj hret) (hno v?)

/-- One more indexed node keeps what was visited, if its key is accounted for. -/
theorem Graph.Visited.insert {key : NodeKey} {vs' : List ValueId} (h : y.Visited x bs vs start?)
    (hvs : ∀ v ∈ vs, v ∈ vs') (hkey : (∃ v ∈ vs', key = .value v) ∨
      ∃ kind, key = .exit z.function kind ∧ z.exitNode? ≠ none)
    (hi : z.index = y.index.insert key n) (hf : z.function = y.function)
    (hexit : y.exitNode? ≠ none → z.exitNode? ≠ none) (hstart : z.entryBlock? = y.entryBlock?)
    {bs' : List BlockId} (hunits : ∀ b, (∃ u, z.unit? (.block b) = some u) ↔ b ∈ bs') :
    z.Visited x bs' vs' start? where
  units := hunits
  keys j i hj := by
    rw [hi, OrderedMap.get?_insert] at hj
    split at hj
    · rename_i hjk
      rw [hjk]
      exact Or.inr hkey
    · rcases h.keys j i hj with hj | ⟨v, hv, hj⟩ | ⟨kind, hj, hne⟩
      · exact Or.inl hj
      · exact Or.inr (Or.inl ⟨v, hvs v hv, hj⟩)
      · exact Or.inr (Or.inr ⟨kind, by rw [hj, hf], hexit hne⟩)
  start := hstart.trans h.start

/-- A value that was not visited and does not stand for the function has no node. -/
theorem Graph.Visited.unused (h : y.Visited x bs vs) (hv : v ∉ vs) (hne : v ≠ x.value) :
    y.index.get? (.value v) = none := by
  cases hn : y.index.get? (.value v) with
  | none => rfl
  | some n =>
    rcases h.keys _ n hn with hk | ⟨w, hw, hk⟩ | ⟨_, hk, _⟩
    · exact absurd (NodeKey.value.inj hk) hne
    · exact absurd (NodeKey.value.inj hk ▸ hw) hv
    · cases hk

/-- Nor has the exit of a graph that has none. -/
theorem Graph.Visited.unused_exit (h : y.Visited x bs vs start?) (hnone : y.exitNode? = none)
    (kind : ExitKind) : y.index.get? (.exit y.function kind) = none := by
  cases hn : y.index.get? (.exit y.function kind) with
  | none => rfl
  | some n =>
    rcases h.keys _ n hn with hk | ⟨_, _, hk⟩ | ⟨_, _, hne⟩
    · cases hk
    · cases hk
    · exact absurd hnone hne

/-! ## The steps of a visit -/

section

variable {key : NodeKey} {block : BlockKey} {f : Graph → Graph}

/-- A new node in a unit of the graph. -/
theorem Registry.grows_giveNode (m : Module) (block : BlockKey) (hy : r.graph? g = some y)
    (hkey : y.index.get? key = none) (hf : ∀ y : Graph, y.SameCore (f y)) :
    r.Grows ((r.giveNode g key (some block)).reviseGraph g f) := by
  have hnode : Quiet m r (r.giveNode g key (some block)) := .node hy hkey
  exact hnode.grows.trans (.reviseGraph fun y _ => (hf y).grows)

theorem Registry.placed_giveNode :
    ((r.giveNode g key (some block)).reviseGraph g f).Placed g block r.nextNode :=
  ⟨.fresh key (some g) (some block), by simp, rfl, rfl⟩

theorem Registry.graph?_giveNode_revised (hy : r.graph? g = some y) :
    ((r.giveNode g key (some block)).reviseGraph g f).graph? g =
      some (f { y with index := y.index.insert key r.nextNode }) := by
  rw [graph?_reviseGraph, if_pos rfl, Work.graph?_giveNode_self hy]
  rfl

/-- The work is about the graph that gets the node. -/
theorem Advances.giveNode (hy : r.graph? g = some y) (hkey : y.index.get? key = none)
    (hf : ∀ y : Graph, y.SameCore (f y)) :
    Advances m r ((r.giveNode g key (some block)).reviseGraph g f) {g} where
  grows := grows_giveNode m block hy hkey hf
  spares h hh y hy := by
    have hne : h ≠ g := hh
    exact ⟨y, by simpa [hne] using hy, .refl y⟩
  whole h hh y' hn hy' := by
    have hne : h ≠ g := hh
    simp [hne, hn] at hy'

end

/-- A block with the node of its first instruction. -/
theorem Registry.Underway.openBlock (h : r.Underway m g x bs vs) (hy : r.graph? g = some y)
    (hkey : y.index.get? (.value v) = none) (b : BlockId) :
    ((r.giveNode g (.value v) (some (.block b))).reviseGraph g fun y =>
      y.openUnit (.block b) r.nextNode).Underway m g x (bs ++ [b]) (vs ++ [v])
        (some r.nextNode) := by
  obtain ⟨y', hy', hd, hv⟩ := h
  rw [hy] at hy'
  cases hy'
  have hgrows := grows_giveNode m (.block b) hy hkey fun z => .openUnit z (.block b) r.nextNode
  refine ⟨_, graph?_giveNode_revised hy, hd.openBlock hgrows placed_giveNode, ?_⟩
  have hindex := Graph.index_openUnit { y with index := y.index.insert (.value v) r.nextNode }
    (.block b) r.nextNode
  refine hv.insert (fun w hw => List.mem_append_left _ hw)
    (Or.inl ⟨v, List.mem_append_right _ (List.mem_singleton_self v), rfl⟩) hindex rfl
    (fun hne => hne) rfl fun d => ?_
  rw [Graph.unit?_openUnit, Graph.unit?_index, List.mem_append, ← hv.units d, List.mem_singleton]
  split
  · rename_i hd
    exact ⟨fun _ => Or.inr (BlockKey.block.inj hd), fun _ => ⟨_, rfl⟩⟩
  · -- the unit is one of those of before
    rename_i hd
    exact ⟨Or.inl, fun hp => hp.resolve_right fun hdb => hd (congrArg BlockKey.block hdb)⟩

/-- One more node of a unit. -/
theorem Registry.Underway.append (h : r.Underway m g x bs vs) (hy : r.graph? g = some y)
    (hkey : y.index.get? (.value v) = none) (b : BlockId) :
    ((r.giveNode g (.value v) (some (.block b))).reviseGraph g fun y =>
      y.modifyUnit (.block b) fun u => { u with nodes := u.nodes ++ [r.nextNode] }).Underway m g x
        bs (vs ++ [v]) (some r.nextNode) := by
  obtain ⟨y', hy', hd, hv⟩ := h
  rw [hy] at hy'
  cases hy'
  have hgrows := grows_giveNode m (.block b) hy hkey fun z =>
    .modifyUnit z (.block b) fun u => { u with nodes := u.nodes ++ [r.nextNode] }
  refine ⟨_, graph?_giveNode_revised hy, hd.append hgrows placed_giveNode, ?_⟩
  have hindex := Graph.index_modifyUnit { y with index := y.index.insert (.value v) r.nextNode }
    (.block b) fun u => { u with nodes := u.nodes ++ [r.nextNode] }
  refine hv.insert (fun w hw => List.mem_append_left _ hw)
    (Or.inl ⟨v, List.mem_append_right _ (List.mem_singleton_self v), rfl⟩) hindex rfl
    (fun hne => hne) (Graph.entryBlock?_modifyUnit _ _ _) fun d => ?_
  rw [Graph.exists_unit_modifyUnit_iff, Graph.unit?_index]
  exact hv.units d

/-- The exit of a graph that had none. -/
theorem Registry.Underway.openExit (h : r.Underway m g x bs vs open? start?)
    (hy : r.graph? g = some y) (hnone : y.exitNode? = none) (kind : ExitKind) :
    ((r.giveNode g (.exit y.function kind) (some .exit)).reviseGraph g fun y =>
      y.openUnit .exit r.nextNode).Underway m g x bs vs open? start? := by
  obtain ⟨y', hy', hd, hv⟩ := h
  rw [hy] at hy'
  cases hy'
  have hgrows := grows_giveNode m .exit hy (hv.unused_exit hnone kind)
    fun z => .openUnit z .exit r.nextNode
  refine ⟨_, graph?_giveNode_revised hy, hd.openExit (x := .fresh (.exit y.function kind) (some g)
    (some .exit)) hgrows hnone placed_giveNode (by simp) rfl, ?_⟩
  have hexit : (({ y with index := y.index.insert (.exit y.function kind) r.nextNode } :
      Graph).openUnit .exit r.nextNode).exitNode? ≠ none := nofun
  refine hv.insert (fun _ hw => hw) (Or.inr ⟨kind, rfl, hexit⟩) (Graph.index_openUnit _ _ _) rfl
    (fun _ => hexit) rfl fun d => ?_
  rw [Graph.unit?_openUnit, if_neg nofun, Graph.unit?_index]
  exact hv.units d

/-- An edge between units, with a label that fits. -/
theorem Registry.Underway.lead {c d : BlockKey} {u w : BlockUnit} {label : Nat}
    (h : r.Underway m g x bs vs open? start?) (hy : r.graph? g = some y) (hc : y.unit? c = some u)
    (hd : y.unit? d = some w) (hl : label = exitLabel ↔ d = .exit) :
    (r.reviseGraph g fun y => y.lead c d label).Underway m g x bs vs open? start? := by
  obtain ⟨y', hy', hdraft, hv⟩ := h
  rw [hy] at hy'
  cases hy'
  have hgrows : r.Grows (r.reviseGraph g fun y => y.lead c d label) :=
    .reviseGraph fun y _ => (Graph.SameCore.lead y c d label).grows
  refine ⟨y.lead c d label, by simp [hy], hdraft.lead hgrows hc hd hl, fun i => ?_,
    fun key n hn => ?_, ?_⟩
  · rw [Graph.lead, Graph.exists_unit_modifyUnit_iff, Graph.exists_unit_modifyUnit_iff]
    exact hv.units i
  · have hsame := Graph.SameCore.lead y c d label
    have hexit : (y.lead c d label).exitNode? = y.exitNode? := by simp [Graph.lead]
    rw [hsame.function, hexit]
    exact hv.keys key n (hsame.index ▸ hn)
  · rw [Graph.lead, Graph.entryBlock?_modifyUnit, Graph.entryBlock?_modifyUnit]
    exact hv.start

end

/-- What a part of the visit of the function `x` does for the graph `g`. After it the blocks `bs`
and the instructions `vs` were come to. -/
structure Visits (e : Setup) (r s : Registry) (g : GraphId) (x : Function) (bs : List BlockId)
    (vs : List ValueId) (open? : Option NodeId := none) (start? : Option BlockId := none) :
    Prop where
  evolves : Evolves e r s
  advances : Advances e.program r s {g}
  underway : s.Underway e.program g x bs vs open? start?

namespace Visits

variable {e : Setup} {r s t : Registry} {g : GraphId} {x : Function} {bs bs' : List BlockId}
  {vs vs' : List ValueId} {open? open'? : Option NodeId} {start? start'? : Option BlockId}

theorem refl (hu : r.Underway e.program g x bs vs open? start?) :
    Visits e r r g x bs vs open? start? :=
  ⟨.refl e r, .refl _ r, hu⟩

theorem trans (h : Visits e r s g x bs vs open? start?)
    (k : Visits e s t g x bs' vs' open'? start'?) : Visits e r t g x bs' vs' open'? start'? :=
  ⟨h.evolves.trans k.evolves, h.advances.trans k.advances, k.underway⟩

/-- Work that is about the body of no graph. -/
theorem aside (hu : r.Underway e.program g x bs vs open? start?) (h : Spares e r s) :
    Visits e r s g x bs vs open? start? :=
  ⟨h.evolves, h.advances.but {g}, hu.advance h.advances⟩

theorem fit (h : Visits e r s g x bs vs open? start?) (hr : r.Fit e.program) : s.Fit e.program :=
  hr.advance h.evolves.changes h.advances h.underway.ready

theorem pending {k : Nat} (h : Visits e r s g x bs vs open? start?)
    (hk : r.pending e.program < k) : s.pending e.program < k :=
  Nat.lt_of_le_of_lt (pending_mono h.evolves.grows) hk

/-- An edge between units, with a label that fits. -/
theorem lead {y : Graph} {c d : BlockKey} {u w : BlockUnit} {label : Nat} (hr : r.Fit e.program)
    (hu : r.Underway e.program g x bs vs open? start?) (hy : r.graph? g = some y)
    (hc : y.unit? c = some u) (hd : y.unit? d = some w) (hl : label = exitLabel ↔ d = .exit) :
    Visits e r (r.reviseGraph g fun y => y.lead c d label) g x bs vs open? start? := by
  have hlead : Evolves e r (r.reviseGraph g fun y => y.lead c d label) := by
    refine .dress hr.orderly g (fun y => .lead y c d label) fun z hz hshaped => ?_
    rw [hy] at hz
    cases hz
    exact hshaped.lead hc hd label
  exact ⟨hlead, .reviseGraph hlead.grows fun hg => absurd rfl hg, hu.lead hy hc hd hl⟩

/-- The block that the graph begins with is entered. -/
theorem begin (hr : r.Fit e.program) (hu : r.Underway e.program g x bs vs open? start?)
    (b? : Option BlockId) :
    Visits e r (r.reviseGraph g fun y => { y with entryBlock? := b? }) g x bs vs open? b? := by
  have hdress : Evolves e r (r.reviseGraph g fun y => { y with entryBlock? := b? }) :=
    .dress hr.orderly g (fun _ => ⟨rfl, rfl, rfl, rfl, rfl, rfl, fun _ h => h⟩)
      fun _ _ hshaped => hshaped.of_eq rfl rfl rfl rfl rfl rfl
  refine ⟨hdress, .reviseGraph hdress.grows fun hg => absurd rfl hg, ?_⟩
  obtain ⟨y, hy, hd, hv⟩ := hu
  have hunit : ∀ k, ({ y with entryBlock? := b? } : Graph).unit? k = y.unit? k := by
    intro k
    cases k <;> rfl
  refine ⟨{ y with entryBlock? := b? }, by simp [hy], ?_, fun b => by rw [hunit, hv.units b],
    hv.keys, rfl⟩
  refine hd.extend hdress.grows ⟨hd.ready.entry, hd.ready.function⟩ (fun i hi => ?_)
    (fun _ hi => hi) (fun k w hw => ?_) (fun a b label hl => Or.inl ?_) fun _ hn => Or.inl hn
  · rw [hunit]
    exact hd.exit i hi
  · rw [hunit] at hw
    exact ⟨hd.filled k w hw, fun n hn => Or.inl ⟨w, hw, hn⟩⟩
  · obtain ⟨w, hw, hm⟩ := hl
    exact ⟨w, hunit a ▸ hw, hm⟩

end Visits

/-- The body `x` of the function `fn` is being visited for the graph `g`. -/
structure Visiting (e : Setup) (g : GraphId) (fn : FunctionId) (x : Function) (bs : List BlockId)
    (vs : List ValueId) (r : Registry) (open? : Option NodeId := none)
    (start? : Option BlockId := none) : Prop where
  fit : r.Fit e.program
  hosts : r.Hosts g fn
  function : e.program.function fn = .ok x
  underway : r.Underway e.program g x bs vs open? start?

namespace Visiting

variable {e : Setup} {r s : Registry} {g : GraphId} {fn : FunctionId} {x : Function}
  {bs bs' : List BlockId} {vs vs' : List ValueId} {open? open'? : Option NodeId}
  {start? start'? : Option BlockId}

theorem after (h : Visiting e g fn x bs vs r open? start?)
    (hs : Visits e r s g x bs' vs' open'? start'?) :
    Visiting e g fn x bs' vs' s open'? start'? where
  fit := hs.fit h.fit
  hosts := h.hosts.grows hs.evolves.grows
  function := h.function
  underway := hs.underway

theorem aside (h : Visiting e g fn x bs vs r open? start?) (hs : Spares e r s) :
    Visiting e g fn x bs vs s open? start? :=
  h.after (.aside h.underway hs)

end Visiting

end Sdg
