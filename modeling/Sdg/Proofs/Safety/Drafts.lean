import Sdg.Proofs.Registry.Order

/-!
# Drafts

What can be said of the body of a graph while it is being made, and of one that is made. The body of
a graph is its entry, its exit, its index and the nodes and successors of its units. Nothing but the
build of the graph itself changes its body, so what holds of it is kept by everything that goes on
in between: parameters that arrive, and whole builds of other graphs.

Main results:

* `Draft.extend` — what has to be shown of one more step of a build;
* `Draft.frame` — a draft is kept where the registry grows and the body stays as it is.
-/

namespace Sdg

open Registry

/-! ## The body of a graph -/

/-- What the body of a graph has of a unit. -/
def BlockUnit.content (u : BlockUnit) : List NodeId × OrderedSet UnitEdge := (u.nodes, u.successors)

namespace Graph

/-- Two looks of a graph with the same body. -/
structure SameBody (y z : Graph) : Prop where
  function : z.function = y.function
  entryNode? : z.entryNode? = y.entryNode?
  exitNode? : z.exitNode? = y.exitNode?
  entryBlock? : z.entryBlock? = y.entryBlock?
  index : z.index = y.index
  content : ∀ k, (z.unit? k).map BlockUnit.content = (y.unit? k).map BlockUnit.content

variable {m : Module} {x y z : Graph} {k : BlockKey}

namespace SameBody

theorem refl (y : Graph) : y.SameBody y := ⟨rfl, rfl, rfl, rfl, rfl, fun _ => rfl⟩

theorem trans (h : x.SameBody y) (h' : y.SameBody z) : x.SameBody z where
  function := h'.function.trans h.function
  entryNode? := h'.entryNode?.trans h.entryNode?
  exitNode? := h'.exitNode?.trans h.exitNode?
  entryBlock? := h'.entryBlock?.trans h.entryBlock?
  index := h'.index.trans h.index
  content k := (h'.content k).trans (h.content k)

theorem symm (h : y.SameBody z) : z.SameBody y where
  function := h.function.symm
  entryNode? := h.entryNode?.symm
  exitNode? := h.exitNode?.symm
  entryBlock? := h.entryBlock?.symm
  index := h.index.symm
  content k := (h.content k).symm

/-- Where the units are the same so is the body. -/
theorem of_units (hf : z.function = y.function) (hen : z.entryNode? = y.entryNode?)
    (hex : z.exitNode? = y.exitNode?) (hb : z.entryBlock? = y.entryBlock?)
    (hi : z.index = y.index) (hu : z.units = y.units) (hu' : z.exitUnit? = y.exitUnit?) :
    y.SameBody z := by
  refine ⟨hf, hen, hex, hb, hi, fun k => ?_⟩
  cases k <;> simp only [unit?, hu, hu']

/-- A change of a unit that leaves its nodes and successors alone. -/
theorem modifyUnit (y : Graph) (k : BlockKey) {f : BlockUnit → BlockUnit}
    (hf : ∀ u, (f u).content = u.content) : y.SameBody (y.modifyUnit k f) := by
  refine ⟨?_, by simp, by simp, ?_, by simp, fun k' => ?_⟩
  · cases k <;> rfl
  · cases k <;> rfl
  · rw [unit?_modifyUnit]
    split
    · cases y.unit? k' <;> simp [hf]
    · rfl

theorem govern (y : Graph) (a b : BlockKey) : y.SameBody (y.govern a b) :=
  .trans (.modifyUnit (f := fun u => { u with controls := u.controls.insert b }) y a fun _ => rfl)
    (.modifyUnit (f := fun u => { u with controlledBy := u.controlledBy.insert a }) _ b
      fun _ => rfl)

theorem exists_unit (h : y.SameBody z) {w : BlockUnit} (hw : z.unit? k = some w) :
    ∃ u, y.unit? k = some u ∧ u.nodes = w.nodes ∧ u.successors = w.successors := by
  have hc := h.content k
  rw [hw] at hc
  obtain ⟨u, hu, he⟩ := Option.map_eq_some_iff.1 hc.symm
  exact ⟨u, hu, congrArg Prod.fst he, congrArg Prod.snd he⟩

theorem leads_iff (h : y.SameBody z) {a b : BlockKey} {label : Nat} :
    z.Leads a b label ↔ y.Leads a b label := by
  constructor <;> intro hp <;> obtain ⟨u, hu, hm⟩ := hp
  · obtain ⟨w, hw, _, hs⟩ := h.exists_unit hu
    exact ⟨w, hw, hs ▸ hm⟩
  · obtain ⟨w, hw, _, hs⟩ := h.symm.exists_unit hu
    exact ⟨w, hw, hs ▸ hm⟩

theorem entryUnit? (h : y.SameBody z) {w : BlockUnit} (hw : z.entryUnit? = some w) :
    ∃ u, y.entryUnit? = some u := by
  obtain ⟨b, hb, hw⟩ := Option.bind_eq_some_iff.1 hw
  obtain ⟨u, hu, _⟩ := h.exists_unit (k := .block b) hw
  exact ⟨u, Option.bind_eq_some_iff.2 ⟨b, h.entryBlock? ▸ hb, hu⟩⟩

end SameBody

/-- The graph can be called: it has its entry, and its function is there. -/
structure Ready (m : Module) (y : Graph) : Prop where
  entry : ∃ n, y.entryNode? = some n
  function : ∃ f, m.function y.function = .ok f

theorem Ready.of_sameBody (h : y.Ready m) (hb : y.SameBody z) : z.Ready m := by
  constructor
  · rw [hb.entryNode?]
    exact h.entry
  · rw [hb.function]
    exact h.function

end Graph

/-! ## Drafts -/

/-- The node `n` stands for something that can be told, and if that is a return it controls the
exit of the graph, which looks like `y`. -/
def Registry.Finished (m : Module) (r : Registry) (y : Graph) (n : NodeId) : Prop :=
  ∃ x op?, r.node? n = some x ∧ m.operation? x.key = .ok op? ∧
    ∀ v?, op? = some (.ret v?) → ∃ exit, y.exitNode? = some exit ∧ exit ∈ x.controls

/-- The node `n` says that it belongs to the unit `k` of the graph `g`. -/
def Registry.Placed (r : Registry) (g : GraphId) (k : BlockKey) (n : NodeId) : Prop :=
  ∃ x, r.node? n = some x ∧ x.block? = some k ∧ x.graph? = some g

/-- As far as the body of the graph `g` is there, which looks like `y`, it is as it has to be; the
node `open?` is still being visited. -/
structure Draft (m : Module) (r : Registry) (g : GraphId) (y : Graph)
    (open? : Option NodeId := none) : Prop where
  ready : y.Ready m
  exit : ∀ n, y.exitNode? = some n → ∃ u, y.unit? .exit = some u
  filled : ∀ k u, y.unit? k = some u → u.nodes ≠ []
  placed : ∀ k u, y.unit? k = some u → ∀ n ∈ u.nodes, r.Placed g k n
  finished : ∀ k u, y.unit? k = some u → ∀ n ∈ u.nodes, open? ≠ some n → r.Finished m y n
  labelled : ∀ a b label, y.Leads a b label → (label = exitLabel ↔ b = .exit)

/-- The body of the graph `g`, which looks like `y`, is complete. -/
structure Whole (m : Module) (r : Registry) (g : GraphId) (y : Graph) : Prop where
  draft : Draft m r g y
  exit : ∃ n, y.exitNode? = some n
  first : ∃ u, y.entryUnit? = some u

variable {m : Module} {r s t : Registry} {g : GraphId} {y z : Graph} {k a b : BlockKey}
  {n : NodeId} {open? open'? : Option NodeId}

theorem Registry.Placed.grows (hg : r.Grows s) (h : r.Placed g k n) : s.Placed g k n := by
  obtain ⟨x, hx, hb, hxg⟩ := h
  obtain ⟨x', hx', hxx⟩ := hg.node n x hx
  exact ⟨x', hx', hxx.block?.trans hb, hxx.graph?.trans hxg⟩

theorem Registry.Finished.grows (hg : r.Grows s)
    (he : ∀ i, y.exitNode? = some i → z.exitNode? = some i) (h : r.Finished m y n) :
    s.Finished m z n := by
  obtain ⟨x, op?, hx, hop, hret⟩ := h
  obtain ⟨x', hx', hxx⟩ := hg.node n x hx
  refine ⟨x', op?, hx', by rw [hxx.key, hop], fun v? hv => ?_⟩
  obtain ⟨i, hi, hmem⟩ := hret v? hv
  exact ⟨i, he i hi, hxx.controls i hmem⟩

/-- **One more step.** A node of a unit was there before, or it belongs there; a label is one of
before, or it fits; what was open stays so, or is finished. -/
theorem Draft.extend (h : Draft m r g y open?) (hg : r.Grows s) (hready : z.Ready m)
    (hexit : ∀ i, z.exitNode? = some i → ∃ u, z.unit? .exit = some u)
    (hkeep : ∀ i, y.exitNode? = some i → z.exitNode? = some i)
    (hnodes : ∀ k w, z.unit? k = some w → w.nodes ≠ [] ∧ ∀ n ∈ w.nodes,
      (∃ u, y.unit? k = some u ∧ n ∈ u.nodes) ∨
        s.Placed g k n ∧ (open'? ≠ some n → s.Finished m z n))
    (hleads : ∀ a b label, z.Leads a b label → y.Leads a b label ∨
      (label = exitLabel ↔ b = .exit))
    (hopen : ∀ n, open? = some n → open'? = some n ∨ s.Finished m z n) :
    Draft m s g z open'? where
  ready := hready
  exit := hexit
  filled k w hw := (hnodes k w hw).1
  placed k w hw n hn := by
    rcases (hnodes k w hw).2 n hn with ⟨u, hu, hn⟩ | ⟨hp, _⟩
    · exact (h.placed k u hu n hn).grows hg
    · exact hp
  finished k w hw n hn hne := by
    rcases (hnodes k w hw).2 n hn with ⟨u, hu, hn⟩ | ⟨_, hf⟩
    · -- a node that is finished stays so, and the open one is finished by now or still open
      by_cases ho : open? = some n
      · exact (hopen n ho).resolve_left hne
      · exact (h.finished k u hu n hn ho).grows hg hkeep
    · exact hf hne
  labelled a b label hl := by
    rcases hleads a b label hl with hl | hl
    · exact h.labelled a b label hl
    · exact hl

/-- **Frame.** A draft is kept where the registry grows and the body stays as it is. -/
theorem Draft.frame (h : Draft m r g y open?) (hg : r.Grows s) (hb : y.SameBody z) :
    Draft m s g z open? := by
  refine h.extend hg (h.ready.of_sameBody hb) (fun i hi => ?_) (fun i hi => ?_)
    (fun k w hw => ?_) (fun a b label hl => ?_) fun n hn => Or.inl hn
  · rw [hb.exitNode?] at hi
    obtain ⟨u, hu⟩ := h.exit i hi
    obtain ⟨w, hw, _⟩ := hb.symm.exists_unit hu
    exact ⟨w, hw⟩
  · rw [hb.exitNode?]
    exact hi
  · obtain ⟨u, hu, hn, _⟩ := hb.exists_unit hw
    rw [← hn]
    exact ⟨h.filled k u hu, fun n hn => Or.inl ⟨u, hu, hn⟩⟩
  · exact Or.inl (hb.leads_iff.1 hl)

theorem Whole.frame (h : Whole m r g y) (hg : r.Grows s) (hb : y.SameBody z) :
    Whole m s g z where
  draft := h.draft.frame hg hb
  exit := by
    rw [hb.exitNode?]
    exact h.exit
  first := by
    obtain ⟨u, hu⟩ := h.first
    exact hb.symm.entryUnit? hu

/-! ## The steps of a build -/

/-- A draft with nothing open any more. -/
theorem Draft.close (h : Draft m r g y (some n)) (hf : r.Finished m y n) : Draft m r g y := by
  refine h.extend (.refl r) h.ready h.exit (fun _ hi => hi) (fun k w hw => ?_)
    (fun _ _ _ hl => Or.inl hl) fun i hi => ?_
  · exact ⟨h.filled k w hw, fun i hi => Or.inl ⟨w, hw, hi⟩⟩
  · cases hi
    exact Or.inr hf

/-- A graph with its entry and without units. -/
theorem Draft.start (hready : y.Ready m) (hexit : y.exitNode? = none)
    (hunits : ∀ k, y.unit? k = none) :
    Draft m r g y := by
  refine ⟨hready, ?_, ?_, ?_, ?_, ?_⟩
  · simp [hexit]
  all_goals simp [Graph.Leads, hunits]

/-- An edge with a label that fits. -/
theorem Draft.lead {u w : BlockUnit} {label : Nat} (h : Draft m r g y open?) (hg : r.Grows s)
    (ha : y.unit? a = some u) (hb : y.unit? b = some w) (hl : label = exitLabel ↔ b = .exit) :
    Draft m s g (y.lead a b label) open? := by
  have hunit : ∀ k v, (y.lead a b label).unit? k = some v → ∃ u, y.unit? k = some u ∧
      v.nodes = u.nodes := by
    intro k v hv
    obtain ⟨u, hu, _, hn, _⟩ := Graph.exists_unit_of_modifyUnit₂ hv (fun _ => ⟨rfl, rfl, rfl⟩)
      fun _ => ⟨rfl, rfl, rfl⟩
    exact ⟨u, hu, hn⟩
  have hexit : (y.lead a b label).exitNode? = y.exitNode? := by simp [Graph.lead]
  refine h.extend hg ⟨?_, ?_⟩ (fun i hi => ?_) (fun i hi => ?_) (fun k v hv => ?_)
    (fun c d l hcd => ?_) fun i hi => Or.inl hi
  · simpa [Graph.lead] using h.ready.entry
  · have hf : (y.lead a b label).function = y.function := (Graph.SameCore.lead y a b label).function
    rw [hf]
    exact h.ready.function
  · rw [hexit] at hi
    obtain ⟨v, hv⟩ := h.exit i hi
    obtain ⟨v', hv'⟩ := Graph.exists_unit_modifyUnit hv a fun u =>
      { u with successors := u.successors.insert ⟨b, label⟩ }
    exact Graph.exists_unit_modifyUnit hv' b _
  · rw [hexit]
    exact hi
  · obtain ⟨u, hu, hn⟩ := hunit k v hv
    rw [hn]
    exact ⟨h.filled k u hu, fun i hi => Or.inl ⟨u, hu, hi⟩⟩
  · rcases (Graph.leads_lead ha).1 hcd with hcd | ⟨rfl, rfl, rfl⟩
    · exact Or.inl hcd
    · exact Or.inr hl

section

variable {i : OrderedMap NodeKey NodeId} {b : BlockId}

/-- A unit of a graph with a new one is that, with its one node, or an old one. -/
theorem Graph.exists_unit_of_openUnit {w : BlockUnit}
    (h : (({ y with index := i } : Graph).openUnit a n).unit? k = some w) :
    k = a ∧ w = .single a n ∨ y.unit? k = some w := by
  rw [unit?_openUnit] at h
  split at h
  · exact Or.inl ⟨‹_›, (Option.some.inj h).symm⟩
  · exact Or.inr (unit?_index y i k ▸ h)

/-- A new unit leads nowhere. -/
theorem Graph.leads_of_openUnit {c d : BlockKey} {label : Nat}
    (h : (({ y with index := i } : Graph).openUnit a n).Leads c d label) : y.Leads c d label := by
  obtain ⟨w, hw, hm⟩ := h
  rcases exists_unit_of_openUnit hw with ⟨_, rfl⟩ | hw
  · exact absurd hm (OrderedSet.not_mem_empty _)
  · exact ⟨w, hw, hm⟩

/-- A block with its first node, which is visited next. -/
theorem Draft.openBlock (h : Draft m r g y) (hg : r.Grows s) (hp : s.Placed g (.block b) n) :
    Draft m s g (({ y with index := i } : Graph).openUnit (.block b) n) (some n) := by
  refine h.extend hg ⟨h.ready.entry, h.ready.function⟩ (fun j hj => ?_) (fun _ hj => hj)
    (fun k w hw => ?_) (fun c d l hl => Or.inl (Graph.leads_of_openUnit hl)) nofun
  · exact h.exit j hj
  · rcases Graph.exists_unit_of_openUnit hw with ⟨rfl, rfl⟩ | hw
    · refine ⟨by simp [BlockUnit.single], fun j hj => Or.inr ?_⟩
      rw [List.mem_singleton.1 hj]
      exact ⟨hp, fun hne => absurd rfl hne⟩
    · exact ⟨h.filled k w hw, fun j hj => Or.inl ⟨w, hw, hj⟩⟩

/-- The exit, for which no return has waited so far but the one that is being visited. -/
theorem Draft.openExit {x : Node} (h : Draft m r g y open?) (hg : r.Grows s)
    (hnone : y.exitNode? = none) (hp : s.Placed g .exit n) (hx : s.node? n = some x)
    (hop : m.operation? x.key = .ok none) :
    Draft m s g (({ y with index := i } : Graph).openUnit .exit n) open? := by
  refine h.extend hg ⟨h.ready.entry, h.ready.function⟩ (fun j _ => ?_) (fun j hj => ?_)
    (fun k w hw => ?_) (fun c d l hl => Or.inl (Graph.leads_of_openUnit hl)) fun _ hj => Or.inl hj
  · exact ⟨_, rfl⟩
  · rw [hnone] at hj
    cases hj
  · rcases Graph.exists_unit_of_openUnit hw with ⟨rfl, rfl⟩ | hw
    · refine ⟨by simp [BlockUnit.single], fun j hj => Or.inr ?_⟩
      rw [List.mem_singleton.1 hj]
      exact ⟨hp, fun _ => ⟨x, none, hx, hop, nofun⟩⟩
    · exact ⟨h.filled k w hw, fun j hj => Or.inl ⟨w, hw, hj⟩⟩

/-- A unit with one more node, which is visited next. -/
theorem Draft.append (h : Draft m r g y) (hg : r.Grows s) (hp : s.Placed g k n) :
    Draft m s g (({ y with index := i } : Graph).modifyUnit k
      fun u => { u with nodes := u.nodes ++ [n] }) (some n) := by
  -- units keep their successors, and only the unit `k` gets a node
  have hunit : ∀ k' w, (({ y with index := i } : Graph).modifyUnit k
      fun u => { u with nodes := u.nodes ++ [n] }).unit? k' = some w → ∃ u, y.unit? k' = some u ∧
        w.successors = u.successors ∧ (w.nodes = u.nodes ∨ k' = k ∧ w.nodes = u.nodes ++ [n]) := by
    intro k' w hw
    rw [Graph.unit?_modifyUnit, Graph.unit?_index] at hw
    split at hw
    · obtain ⟨u, hu, rfl⟩ := Option.map_eq_some_iff.1 hw
      exact ⟨u, hu, rfl, Or.inr ⟨‹_›, rfl⟩⟩
    · exact ⟨w, hw, rfl, Or.inl rfl⟩
  refine h.extend hg ⟨?_, ?_⟩ (fun j hj => ?_) (fun j hj => ?_) (fun k' w hw => ?_)
    (fun c d l hl => Or.inl ?_) nofun
  · simpa using h.ready.entry
  · have hf := (Graph.SameCore.modifyUnit ({ y with index := i } : Graph) k
      fun u => { u with nodes := u.nodes ++ [n] }).function
    rw [hf]
    exact h.ready.function
  · rw [Graph.exitNode?_modifyUnit] at hj
    obtain ⟨u, hu⟩ := h.exit j hj
    exact Graph.exists_unit_modifyUnit ((Graph.unit?_index y i _).trans hu) k _
  · rw [Graph.exitNode?_modifyUnit]
    exact hj
  · obtain ⟨u, hu, _, hn | ⟨rfl, hn⟩⟩ := hunit k' w hw
    · rw [hn]
      exact ⟨h.filled k' u hu, fun j hj => Or.inl ⟨u, hu, hj⟩⟩
    · rw [hn]
      refine ⟨by simp, fun j hj => ?_⟩
      rcases List.mem_append.1 hj with hj | hj
      · exact Or.inl ⟨u, hu, hj⟩
      · rw [List.mem_singleton.1 hj]
        exact Or.inr ⟨hp, fun hne => absurd rfl hne⟩
  · obtain ⟨w, hw, hm⟩ := hl
    obtain ⟨u, hu, hs, _⟩ := hunit c w hw
    exact ⟨u, hu, hs ▸ hm⟩

end

end Sdg
