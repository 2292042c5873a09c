import Sdg.Proofs.Formals.Access
import Sdg.Proofs.Registry.View

/-!
# The shape of a graph

What the parts of one graph have to do with each other: its entry and exit, its units and its calls
are made of nodes that it has indexed, and its units keep their edges at both ends. `Shaped` gathers
this. It is about single graphs, and says nothing of parameters and links.

An edge between units is entered at one end after the other, and a unit is there before its first
node. Neither half alone keeps the shape, so these steps are taken together here, as `Graph.lead`,
`Graph.govern` and `Graph.openUnit`.

Main results:

* `Graph.Shaped.lead`, `Graph.Shaped.govern` — new edges between units that are there keep the
  shape;
* `Graph.Shaped.openUnit` — a new unit with its first node keeps the shape.
-/

namespace Sdg

/-- A unit with one node. -/
def BlockUnit.single (k : BlockKey) (n : NodeId) : BlockUnit :=
  { BlockUnit.fresh k with nodes := [n] }

namespace Graph

/-- Unit `a` has `b` as a successor, by an edge with this label. -/
def Leads (y : Graph) (a b : BlockKey) (label : Nat) : Prop :=
  ∃ u, y.unit? a = some u ∧ ⟨b, label⟩ ∈ u.successors

/-- Unit `b` has `a` as a predecessor, by an edge with this label. -/
def LedBy (y : Graph) (b a : BlockKey) (label : Nat) : Prop :=
  ∃ u, y.unit? b = some u ∧ ⟨a, label⟩ ∈ u.predecessors

/-- Unit `a` controls `b`, as `a` tells. -/
def Governs (y : Graph) (a b : BlockKey) : Prop := ∃ u, y.unit? a = some u ∧ b ∈ u.controls

/-- Unit `b` is controlled by `a`, as `b` tells. -/
def GovernedBy (y : Graph) (b a : BlockKey) : Prop := ∃ u, y.unit? b = some u ∧ a ∈ u.controlledBy

section

variable {y : Graph} {a b : BlockKey} {u : BlockUnit}

theorem leads_iff_mem {label : Nat} (hu : y.unit? a = some u) :
    y.Leads a b label ↔ ⟨b, label⟩ ∈ u.successors := by
  simp [Leads, hu]

theorem governs_iff_mem (hu : y.unit? a = some u) : y.Governs a b ↔ b ∈ u.controls := by
  simp [Governs, hu]

theorem governedBy_iff_mem (hu : y.unit? a = some u) :
    y.GovernedBy a b ↔ b ∈ u.controlledBy := by
  simp [GovernedBy, hu]

end

/-- The node is in the index of the graph. -/
def Holds (y : Graph) (n : NodeId) : Prop := ∃ key, y.index.get? key = some n

/-- What the parts of a graph have to do with each other. -/
structure Shaped (m : Module) (y : Graph) : Prop where
  entry : ∀ n, y.entryNode? = some n → y.Holds n
  exit : ∀ n, y.exitNode? = some n → y.Holds n
  /-- The unit of the exit comes with the exit. -/
  closed : ∀ u, y.unit? .exit = some u → ∃ n, y.exitNode? = some n
  /-- The unit of a block comes with the node of its first instruction. -/
  opened : ∀ b u x v rest, y.unit? (.block b) = some u → m.block b = .ok x →
    x.instructions = v :: rest → ∃ n, y.index.get? (.value v) = some n
  keyed : ∀ b u, y.unit? b = some u → u.key = b
  nodes : ∀ b u, y.unit? b = some u → ∀ n ∈ u.nodes, y.Holds n
  /-- A call that was linked is listed among the calls. -/
  sites : ∀ b u, y.unit? b = some u → ∀ c ∈ u.callSites, c ∈ y.callNodes
  /-- Only the node of a call is listed as one. -/
  calls : ∀ c ∈ y.callNodes, ∃ v callee args, y.index.get? (.value v) = some c ∧
    m.IsCallOf v callee args
  leads : ∀ a b label, y.Leads a b label ↔ y.LedBy b a label
  governs : ∀ a b, y.Governs a b ↔ y.GovernedBy b a

/-! ## Steps that belong together -/

/-- Adds a labelled edge between units, at both ends. -/
def lead (y : Graph) (a b : BlockKey) (label : Nat) : Graph :=
  (y.modifyUnit a fun u => { u with successors := u.successors.insert ⟨b, label⟩ }).modifyUnit b
    fun u => { u with predecessors := u.predecessors.insert ⟨a, label⟩ }

/-- Makes unit `a` control unit `b`, at both ends. -/
def govern (y : Graph) (a b : BlockKey) : Graph :=
  (y.modifyUnit a fun u => { u with controls := u.controls.insert b }).modifyUnit b
    fun u => { u with controlledBy := u.controlledBy.insert a }

/-- Gives the graph a unit with its first node. In the unit of the exit that is the exit. -/
def openUnit (y : Graph) (k : BlockKey) (n : NodeId) : Graph :=
  match k with
  | .block b => { y with units := y.units.insert b (.single (.block b) n) }
  | .exit => { y with exitUnit? := some (.single .exit n), exitNode? := some n }

variable {m : Module} {y z : Graph} {a b c d k : BlockKey} {n : NodeId} {label l : Nat}
  {f : BlockUnit → BlockUnit}

@[simp] theorem unit?_modifyUnit (y : Graph) (k : BlockKey) (f : BlockUnit → BlockUnit)
    (b : BlockKey) :
    (y.modifyUnit k f).unit? b = if b = k then (y.unit? b).map f else y.unit? b := by
  cases k <;> cases b <;> simp [modifyUnit, unit?, OrderedMap.get?_modify]

@[simp] theorem index_modifyUnit (y : Graph) (k : BlockKey) (f : BlockUnit → BlockUnit) :
    (y.modifyUnit k f).index = y.index := by
  cases k <;> rfl

@[simp] theorem callNodes_modifyUnit (y : Graph) (k : BlockKey) (f : BlockUnit → BlockUnit) :
    (y.modifyUnit k f).callNodes = y.callNodes := by
  cases k <;> rfl

@[simp] theorem entryNode?_modifyUnit (y : Graph) (k : BlockKey) (f : BlockUnit → BlockUnit) :
    (y.modifyUnit k f).entryNode? = y.entryNode? := by
  cases k <;> rfl

@[simp] theorem exitNode?_modifyUnit (y : Graph) (k : BlockKey) (f : BlockUnit → BlockUnit) :
    (y.modifyUnit k f).exitNode? = y.exitNode? := by
  cases k <;> rfl

@[simp] theorem entryBlock?_modifyUnit (y : Graph) (k : BlockKey) (f : BlockUnit → BlockUnit) :
    (y.modifyUnit k f).entryBlock? = y.entryBlock? := by
  cases k <;> rfl

theorem unit?_index (y : Graph) (i : OrderedMap NodeKey NodeId) (k : BlockKey) :
    ({ y with index := i } : Graph).unit? k = y.unit? k := by
  cases k <;> rfl

@[simp] theorem unit?_openUnit (y : Graph) (k : BlockKey) (n : NodeId) (b : BlockKey) :
    (y.openUnit k n).unit? b = if b = k then some (.single k n) else y.unit? b := by
  cases k <;> cases b <;> simp [openUnit, unit?, OrderedMap.get?_insert]

@[simp] theorem index_openUnit (y : Graph) (k : BlockKey) (n : NodeId) :
    (y.openUnit k n).index = y.index := by
  cases k <;> rfl

@[simp] theorem callNodes_openUnit (y : Graph) (k : BlockKey) (n : NodeId) :
    (y.openUnit k n).callNodes = y.callNodes := by
  cases k <;> rfl

@[simp] theorem entryNode?_openUnit (y : Graph) (k : BlockKey) (n : NodeId) :
    (y.openUnit k n).entryNode? = y.entryNode? := by
  cases k <;> rfl

@[simp] theorem exitNode?_openUnit (y : Graph) (k : BlockKey) (n : NodeId) :
    (y.openUnit k n).exitNode? = if k = .exit then some n else y.exitNode? := by
  cases k <;> rfl

/-! ## What keeps the shape -/

theorem Holds.of_insert {key : NodeKey} {n k : NodeId} (hk : y.index.get? key = none)
    (h : y.Holds n) : ∃ j, (y.index.insert key k).get? j = some n := by
  obtain ⟨j, hj⟩ := h
  refine ⟨j, ?_⟩
  rw [OrderedMap.get?_insert, if_neg]
  · exact hj
  · -- the new key is not the one under which the node is known
    intro hs
    rw [hs, hk] at hj
    cases hj

theorem Shaped.fresh (m : Module) (f : FunctionId) : (fresh f).Shaped m := by
  have hunit : ∀ k, (Graph.fresh f).unit? k = none := fun k => by cases k <;> rfl
  refine ⟨nofun, nofun, ?_, ?_, ?_, ?_, ?_, nofun, fun a b _ => ?_, fun a b => ?_⟩
  all_goals simp [Leads, LedBy, Governs, GovernedBy, hunit]

/-- The shape is that of the entry, the exit, the units, the index and the calls. -/
theorem Shaped.of_eq (h : y.Shaped m) (h₁ : z.entryNode? = y.entryNode?)
    (h₂ : z.exitNode? = y.exitNode?) (h₃ : z.units = y.units) (h₄ : z.exitUnit? = y.exitUnit?)
    (h₅ : z.index = y.index) (h₆ : z.callNodes = y.callNodes) : z.Shaped m := by
  obtain ⟨_, _, _, _, _, _, _, _, _, _, _, _⟩ := y
  obtain ⟨_, _, _, _, _, _, _, _, _, _, _, _⟩ := z
  cases h₁
  cases h₂
  cases h₃
  cases h₄
  cases h₅
  cases h₆
  exact ⟨h.entry, h.exit, h.closed, h.opened, h.keyed, h.nodes, h.sites, h.calls, h.leads,
    h.governs⟩

/-- A node more in the index. -/
theorem Shaped.insert {key : NodeKey} (h : y.Shaped m) (hk : y.index.get? key = none) (n : NodeId) :
    { y with index := y.index.insert key n }.Shaped m where
  entry k hk' := (h.entry k hk').of_insert hk
  exit k hk' := (h.exit k hk').of_insert hk
  closed := h.closed
  opened b u x v rest hu hx hv := by
    obtain ⟨k, hk'⟩ := h.opened b u x v rest hu hx hv
    show ∃ k, (y.index.insert key n).get? (.value v) = some k
    rw [OrderedMap.get?_insert]
    split
    · exact ⟨n, rfl⟩
    · exact ⟨k, hk'⟩
  keyed := h.keyed
  nodes b u hu k hk' := (h.nodes b u hu k hk').of_insert hk
  sites := h.sites
  calls c hc := by
    obtain ⟨v, callee, args, hv, hcall⟩ := h.calls c hc
    refine ⟨v, callee, args, ?_, hcall⟩
    show (y.index.insert key n).get? (.value v) = some c
    rw [OrderedMap.get?_insert, if_neg]
    · exact hv
    · intro hs
      rw [hs, hk] at hv
      cases hv
  leads := h.leads
  governs := h.governs

/-- The entry is a node that was indexed before. -/
theorem Shaped.enter (h : y.Shaped m) (hn : y.Holds n) :
    { y with entryNode? := some n }.Shaped m where
  entry k hk := by
    cases hk
    exact hn
  exit := h.exit
  closed := h.closed
  opened := h.opened
  keyed := h.keyed
  nodes := h.nodes
  sites := h.sites
  calls := h.calls
  leads := h.leads
  governs := h.governs

/-- A call is listed after it was indexed. -/
theorem Shaped.enlist {v callee : ValueId} {args : List ValueId} (h : y.Shaped m)
    (hn : y.index.get? (.value v) = some n) (hcall : m.IsCallOf v callee args) :
    { y with callNodes := y.callNodes.insert n }.Shaped m where
  entry := h.entry
  exit := h.exit
  closed := h.closed
  opened := h.opened
  keyed := h.keyed
  nodes := h.nodes
  sites b u hu c hc := OrderedSet.mem_insert.2 (Or.inl (h.sites b u hu c hc))
  calls c hc := by
    rcases OrderedSet.mem_insert.1 hc with hc | rfl
    · exact h.calls c hc
    · exact ⟨v, callee, args, hn, hcall⟩
  leads := h.leads
  governs := h.governs

/-! ## New edges and new entries in units -/

section

variable {β : Type} (edges : BlockUnit → OrderedSet β) {x e : β} {u : BlockUnit}

/-- A change of a unit that leaves its edges alone. -/
theorem exists_mem_modifyUnit_of_eq (hf : ∀ u, edges (f u) = edges u) :
    (∃ w, (y.modifyUnit k f).unit? b = some w ∧ e ∈ edges w) ↔
      ∃ w, y.unit? b = some w ∧ e ∈ edges w := by
  rw [unit?_modifyUnit]
  by_cases hb : b = k
  · cases hu : y.unit? b <;> simp [hb, hf]
  · simp [hb]

/-- One more edge at a unit that is there. -/
theorem exists_mem_modifyUnit [DecidableEq β] (hu : y.unit? k = some u)
    (hf : ∀ u, edges (f u) = (edges u).insert x) :
    (∃ w, (y.modifyUnit k f).unit? b = some w ∧ e ∈ edges w) ↔
      (∃ w, y.unit? b = some w ∧ e ∈ edges w) ∨ b = k ∧ e = x := by
  rw [unit?_modifyUnit]
  by_cases hb : b = k
  · subst hb
    simp [hu, hf]
  · simp [hb]

end

/-- A unit is there after a change of units. -/
theorem exists_unit_modifyUnit {u : BlockUnit} (hu : y.unit? b = some u) (k : BlockKey)
    (f : BlockUnit → BlockUnit) : ∃ w, (y.modifyUnit k f).unit? b = some w := by
  rw [unit?_modifyUnit, hu]
  split <;> exact ⟨_, rfl⟩

/-- Units are changed, but none comes and none goes. -/
theorem exists_unit_modifyUnit_iff (y : Graph) (k c : BlockKey) (f : BlockUnit → BlockUnit) :
    (∃ u, (y.modifyUnit k f).unit? c = some u) ↔ ∃ u, y.unit? c = some u := by
  rw [unit?_modifyUnit]
  split
  · cases y.unit? c <;> simp
  · rfl

/-- A unit that is there after a change of units was there before. -/
theorem exists_unit_of_modifyUnit {w : BlockUnit} (h : (y.modifyUnit k f).unit? b = some w) :
    ∃ u, y.unit? b = some u ∧ (w = u ∨ w = f u) := by
  rw [unit?_modifyUnit] at h
  split at h
  · obtain ⟨u, hu, rfl⟩ := Option.map_eq_some_iff.1 h
    exact ⟨u, hu, Or.inr rfl⟩
  · exact ⟨w, h, Or.inl rfl⟩

theorem leads_lead {u : BlockUnit} (ha : y.unit? a = some u) :
    (y.lead a b label).Leads c d l ↔ y.Leads c d l ∨ c = a ∧ d = b ∧ l = label := by
  unfold Leads lead
  -- the other end changes no successors
  rw [exists_mem_modifyUnit_of_eq BlockUnit.successors, exists_mem_modifyUnit
    BlockUnit.successors ha, UnitEdge.mk.injEq]
  all_goals exact fun _ => rfl

theorem ledBy_lead {u : BlockUnit} (hb : y.unit? b = some u) :
    (y.lead a b label).LedBy d c l ↔ y.LedBy d c l ∨ d = b ∧ c = a ∧ l = label := by
  unfold LedBy lead
  -- the unit is there after the other end was changed, with the predecessors that it had
  obtain ⟨w, hw⟩ := exists_unit_modifyUnit hb a fun u =>
    { u with successors := u.successors.insert ⟨b, label⟩ }
  rw [exists_mem_modifyUnit BlockUnit.predecessors hw, UnitEdge.mk.injEq,
    exists_mem_modifyUnit_of_eq BlockUnit.predecessors]
  all_goals exact fun _ => rfl

theorem governs_govern {u : BlockUnit} (ha : y.unit? a = some u) :
    (y.govern a b).Governs c d ↔ y.Governs c d ∨ c = a ∧ d = b := by
  unfold Governs govern
  rw [exists_mem_modifyUnit_of_eq BlockUnit.controls, exists_mem_modifyUnit BlockUnit.controls ha]
  all_goals exact fun _ => rfl

theorem governedBy_govern {u : BlockUnit} (hb : y.unit? b = some u) :
    (y.govern a b).GovernedBy d c ↔ y.GovernedBy d c ∨ d = b ∧ c = a := by
  unfold GovernedBy govern
  obtain ⟨w, hw⟩ := exists_unit_modifyUnit hb a fun u => { u with controls := u.controls.insert b }
  rw [exists_mem_modifyUnit BlockUnit.controlledBy hw,
    exists_mem_modifyUnit_of_eq BlockUnit.controlledBy]
  all_goals exact fun _ => rfl

/-- Where units are changed and no unit is new, the shape is kept if the units stay what they are,
get only nodes that are indexed and calls that are listed, and have their edges at both ends. -/
theorem Shaped.of_units (h : y.Shaped m) (h₁ : z.entryNode? = y.entryNode?)
    (h₂ : z.exitNode? = y.exitNode?) (h₃ : z.index = y.index) (h₄ : z.callNodes = y.callNodes)
    (hunits : ∀ b w, z.unit? b = some w → ∃ u, y.unit? b = some u ∧ w.key = u.key ∧
      (∀ n ∈ w.nodes, n ∈ u.nodes ∨ y.Holds n) ∧
        ∀ c ∈ w.callSites, c ∈ u.callSites ∨ c ∈ y.callNodes)
    (hleads : ∀ a b label, z.Leads a b label ↔ z.LedBy b a label)
    (hgoverns : ∀ a b, z.Governs a b ↔ z.GovernedBy b a) : z.Shaped m where
  entry n hn := by
    rw [Holds, h₃]
    exact h.entry n (h₁ ▸ hn)
  exit n hn := by
    rw [Holds, h₃]
    exact h.exit n (h₂ ▸ hn)
  closed w hw := by
    obtain ⟨u, hu, _⟩ := hunits .exit w hw
    rw [h₂]
    exact h.closed u hu
  opened b w x v rest hw hx hv := by
    obtain ⟨u, hu, _⟩ := hunits (.block b) w hw
    rw [h₃]
    exact h.opened b u x v rest hu hx hv
  keyed b w hw := by
    obtain ⟨u, hu, hk, _⟩ := hunits b w hw
    exact hk.trans (h.keyed b u hu)
  nodes b w hw n hn := by
    obtain ⟨u, hu, _, hnodes, _⟩ := hunits b w hw
    rw [Holds, h₃]
    rcases hnodes n hn with hn | hn
    · exact h.nodes b u hu n hn
    · exact hn
  sites b w hw c hc := by
    obtain ⟨u, hu, _, _, hsites⟩ := hunits b w hw
    rw [h₄]
    rcases hsites c hc with hc | hc
    · exact h.sites b u hu c hc
    · exact hc
  calls c hc := by
    rw [h₃]
    exact h.calls c (h₄ ▸ hc)
  leads := hleads
  governs := hgoverns

/-- A change of a unit that leaves its edges alone and adds only nodes that are indexed and calls
that are listed. -/
theorem Shaped.modifyUnit (h : y.Shaped m) (hkey : ∀ u, (f u).key = u.key)
    (hsuc : ∀ u, (f u).successors = u.successors) (hpre : ∀ u, (f u).predecessors = u.predecessors)
    (hcon : ∀ u, (f u).controls = u.controls) (hby : ∀ u, (f u).controlledBy = u.controlledBy)
    (hnodes : ∀ u, ∀ n ∈ (f u).nodes, n ∈ u.nodes ∨ y.Holds n)
    (hsites : ∀ u, ∀ c ∈ (f u).callSites, c ∈ u.callSites ∨ c ∈ y.callNodes) :
    (y.modifyUnit k f).Shaped m := by
  refine h.of_units (by simp) (by simp) (by simp) (by simp) ?_ ?_ ?_
  · intro b w hw
    obtain ⟨u, hu, rfl | rfl⟩ := exists_unit_of_modifyUnit hw
    · exact ⟨w, hu, rfl, fun _ h => Or.inl h, fun _ h => Or.inl h⟩
    · exact ⟨u, hu, hkey u, hnodes u, hsites u⟩
  · intro a b label
    unfold Leads LedBy
    rw [exists_mem_modifyUnit_of_eq _ hsuc, exists_mem_modifyUnit_of_eq _ hpre]
    exact h.leads a b label
  · intro a b
    unfold Governs GovernedBy
    rw [exists_mem_modifyUnit_of_eq _ hcon, exists_mem_modifyUnit_of_eq _ hby]
    exact h.governs a b

/-- A unit gets a node that is indexed. -/
theorem Shaped.append (h : y.Shaped m) (hn : y.Holds n) :
    (y.modifyUnit k fun u => { u with nodes := u.nodes ++ [n] }).Shaped m := by
  refine h.modifyUnit (fun _ => rfl) (fun _ => rfl) (fun _ => rfl) (fun _ => rfl) (fun _ => rfl)
    (fun u i hi => ?_) fun _ _ hc => Or.inl hc
  rcases List.mem_append.1 hi with hi | hi
  · exact Or.inl hi
  · rw [List.mem_singleton.1 hi]
    exact Or.inr hn

/-- A unit gets a call that is listed. -/
theorem Shaped.site (h : y.Shaped m) (hn : n ∈ y.callNodes) :
    (y.modifyUnit k fun u => { u with callSites := u.callSites.insert n }).Shaped m := by
  refine h.modifyUnit (fun _ => rfl) (fun _ => rfl) (fun _ => rfl) (fun _ => rfl) (fun _ => rfl)
    (fun _ _ hi => Or.inl hi) fun u c hc => ?_
  rcases OrderedSet.mem_insert.1 hc with hc | rfl
  · exact Or.inl hc
  · exact Or.inr hn

/-- Two changes of units that leave the nodes and calls of units alone. -/
theorem exists_unit_of_modifyUnit₂ {f' : BlockUnit → BlockUnit} {w : BlockUnit}
    (h : ((y.modifyUnit a f).modifyUnit b f').unit? k = some w)
    (hf : ∀ u, (f u).key = u.key ∧ (f u).nodes = u.nodes ∧ (f u).callSites = u.callSites)
    (hf' : ∀ u, (f' u).key = u.key ∧ (f' u).nodes = u.nodes ∧ (f' u).callSites = u.callSites) :
    ∃ u, y.unit? k = some u ∧ w.key = u.key ∧ w.nodes = u.nodes ∧ w.callSites = u.callSites := by
  obtain ⟨v, hv, hw⟩ := exists_unit_of_modifyUnit h
  obtain ⟨u, hu, hvu⟩ := exists_unit_of_modifyUnit hv
  refine ⟨u, hu, ?_⟩
  rcases hw with rfl | rfl <;> rcases hvu with rfl | rfl <;> simp [hf, hf']

/-- An edge between units that are there. -/
theorem Shaped.lead {u w : BlockUnit} (h : y.Shaped m) (ha : y.unit? a = some u)
    (hb : y.unit? b = some w) (label : Nat) : (y.lead a b label).Shaped m := by
  refine h.of_units (by simp [Graph.lead]) (by simp [Graph.lead]) (by simp [Graph.lead])
    (by simp [Graph.lead]) ?_ ?_ ?_
  · intro k v hv
    obtain ⟨u, hu, hk, hnodes, hsites⟩ := exists_unit_of_modifyUnit₂ hv
      (fun _ => ⟨rfl, rfl, rfl⟩) fun _ => ⟨rfl, rfl, rfl⟩
    exact ⟨u, hu, hk, fun n hn => Or.inl (hnodes ▸ hn), fun c hc => Or.inl (hsites ▸ hc)⟩
  · intro c d l
    rw [leads_lead ha, ledBy_lead hb, h.leads]
    exact or_congr_right and_left_comm
  · intro c d
    unfold Governs GovernedBy Graph.lead
    rw [exists_mem_modifyUnit_of_eq BlockUnit.controls, exists_mem_modifyUnit_of_eq
      BlockUnit.controls, exists_mem_modifyUnit_of_eq BlockUnit.controlledBy,
      exists_mem_modifyUnit_of_eq BlockUnit.controlledBy]
    · exact h.governs c d
    all_goals exact fun _ => rfl

/-- Control between units that are there. -/
theorem Shaped.govern {u w : BlockUnit} (h : y.Shaped m) (ha : y.unit? a = some u)
    (hb : y.unit? b = some w) : (y.govern a b).Shaped m := by
  refine h.of_units (by simp [Graph.govern]) (by simp [Graph.govern]) (by simp [Graph.govern])
    (by simp [Graph.govern]) ?_ ?_ ?_
  · intro k v hv
    obtain ⟨u, hu, hk, hnodes, hsites⟩ := exists_unit_of_modifyUnit₂ hv
      (fun _ => ⟨rfl, rfl, rfl⟩) fun _ => ⟨rfl, rfl, rfl⟩
    exact ⟨u, hu, hk, fun n hn => Or.inl (hnodes ▸ hn), fun c hc => Or.inl (hsites ▸ hc)⟩
  · intro c d l
    unfold Leads LedBy Graph.govern
    rw [exists_mem_modifyUnit_of_eq BlockUnit.successors, exists_mem_modifyUnit_of_eq
      BlockUnit.successors, exists_mem_modifyUnit_of_eq BlockUnit.predecessors,
      exists_mem_modifyUnit_of_eq BlockUnit.predecessors]
    · exact h.leads c d l
    all_goals exact fun _ => rfl
  · intro c d
    rw [governs_govern ha, governedBy_govern hb, h.governs]
    exact or_congr_right and_comm

/-! ## New units -/

/-- A new unit has no edges, so there are no more edges than before. -/
theorem exists_mem_openUnit {β : Type} (edges : BlockUnit → OrderedSet β) {e : β}
    (hk : y.unit? k = none) (hnone : ∀ n, e ∉ edges (.single k n)) :
    (∃ w, (y.openUnit k n).unit? b = some w ∧ e ∈ edges w) ↔
      ∃ w, y.unit? b = some w ∧ e ∈ edges w := by
  rw [unit?_openUnit]
  by_cases hb : b = k
  · subst hb
    simp [hk, hnone]
  · simp [hb]

/-- **New units.** A new unit with its first node, which for a block is that of its first
instruction. -/
theorem Shaped.openUnit (h : y.Shaped m) (hk : y.unit? k = none) (hn : y.Holds n)
    (hfirst : ∀ b x v rest, k = .block b → m.block b = .ok x → x.instructions = v :: rest →
      ∃ n, y.index.get? (.value v) = some n) : (y.openUnit k n).Shaped m := by
  -- a unit is the new one, which has one node and no call, or an old one
  have hcase : ∀ b w, (y.openUnit k n).unit? b = some w →
      b = k ∧ w = .single k n ∨ y.unit? b = some w := by
    intro b w hw
    rw [unit?_openUnit] at hw
    split at hw
    · rename_i hb
      exact Or.inl ⟨hb, (Option.some.inj hw).symm⟩
    · exact Or.inr hw
  constructor
  case entry => simpa [Holds] using h.entry
  case exit =>
    intro i hi
    rw [Holds, index_openUnit]
    rw [exitNode?_openUnit] at hi
    split at hi
    · exact (Option.some.inj hi) ▸ hn
    · exact h.exit i hi
  case closed =>
    intro w hw
    rw [exitNode?_openUnit]
    split
    · exact ⟨n, rfl⟩
    · rename_i hne
      rcases hcase _ w hw with ⟨hk, _⟩ | hw
      · exact absurd hk.symm hne
      · exact h.closed w hw
  case opened =>
    intro b w x v rest hw hx hv
    rw [index_openUnit]
    rcases hcase _ w hw with ⟨hb, _⟩ | hw
    · exact hfirst b x v rest hb.symm hx hv
    · exact h.opened b w x v rest hw hx hv
  case keyed =>
    intro b w hw
    rcases hcase b w hw with ⟨rfl, rfl⟩ | hw
    · rfl
    · exact h.keyed b w hw
  case nodes =>
    intro b w hw i hi
    rw [Holds, index_openUnit]
    rcases hcase b w hw with ⟨_, rfl⟩ | hw
    · rw [List.mem_singleton.1 hi]
      exact hn
    · exact h.nodes b w hw i hi
  case sites =>
    intro b w hw c hc
    rw [callNodes_openUnit]
    rcases hcase b w hw with ⟨_, rfl⟩ | hw
    · exact absurd hc (OrderedSet.not_mem_empty c)
    · exact h.sites b w hw c hc
  case calls => simpa using h.calls
  case leads =>
    intro a b label
    unfold Leads LedBy
    -- a fresh unit has no edges
    rw [exists_mem_openUnit BlockUnit.successors hk, exists_mem_openUnit BlockUnit.predecessors hk]
    · exact h.leads a b label
    all_goals exact fun _ => OrderedSet.not_mem_empty _
  case governs =>
    intro a b
    unfold Governs GovernedBy
    rw [exists_mem_openUnit BlockUnit.controls hk, exists_mem_openUnit BlockUnit.controlledBy hk]
    · exact h.governs a b
    all_goals exact fun _ => OrderedSet.not_mem_empty _

end Graph

/-! ## Registries -/

namespace Registry

/-- All graphs of a registry have their shape. -/
def Shaped (m : Module) (r : Registry) : Prop := ∀ g y, r.graph? g = some y → y.Shaped m

variable {m : Module} {r s : Registry} {g : GraphId}

theorem Shaped.empty (m : Module) : Registry.empty.Shaped m := fun _ _ h => nomatch h

theorem Shaped.of_graphs (h : r.Shaped m) (hg : ∀ g, s.graph? g = r.graph? g) : s.Shaped m :=
  fun g y hy => h g y (hg g ▸ hy)

/-- If one graph was revised, its shape alone is in question. -/
theorem Shaped.reviseGraph {f : Graph → Graph} (h : r.Shaped m)
    (hf : ∀ y, r.graph? g = some y → y.Shaped m → (f y).Shaped m) :
    (r.reviseGraph g f).Shaped m := by
  intro k y hy
  rw [graph?_reviseGraph] at hy
  split at hy
  · rename_i hk
    subst hk
    obtain ⟨z, hz, rfl⟩ := Option.map_eq_some_iff.1 hy
    exact hf z hz (h k z hz)
  · exact h k y hy

theorem Shaped.pushGraph (h : r.Shaped m) (f : FunctionId) :
    (r.pushGraph (.fresh f)).Shaped m := by
  intro g y hy
  rw [graph?_pushGraph] at hy
  split at hy
  · cases hy
    exact .fresh m f
  · exact h g y hy

end Registry

end Sdg
