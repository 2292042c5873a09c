import Mathlib.Data.Set.Insert
import Sdg.Proofs.Control.Wired
import Sdg.Proofs.Registry.Live

/-!
# Steps that keep the control edges right

The elementary steps of a build, each with the edges that it makes due. A parameter comes with its
edges and a link with its own, so that none of these steps leaves an edge to be made up for.

Main results:

* `Wired.dress`, `Wired.giveNode` — entries in a graph, and new nodes of an open body;
* `Wired.control`, `Wired.giveFormal`, `Wired.giveActual`, `Wired.link` — new edges, parameters and
  links;
* `Wired.close` — a graph that has all edges that its body asks for is an exception no more.
-/

namespace Sdg

open Registry

namespace Registry

variable {m : Module} {phiControl : Bool} {r s : Registry} {a b c n : NodeId} {g : GraphId}
  {y : Graph} {x : Node} {B G : Set GraphId} {f : Graph → Graph} {key : NodeKey} {i : Slot}

/-! ## Entries in graphs -/

/-- Where one graph is revised, it is all there is to look at of graphs. -/
theorem Wired.reviseAt {z : Graph} (hr : r.Wired m phiControl B G) (hy : r.graph? g = some y)
    (hz : s.graph? g = some z) (hother : ∀ k, k ≠ g → s.graph? k = r.graph? k) (hg : r.Grows s)
    (hpool : s.pool = r.pool) (hkeeps : y.Keeps z)
    (hbody : y.SameNodes z ∨ g ∈ B ∧ s.Seated m z) (hentry : z.entryNode? = y.entryNode?)
    (hformals : ∀ n i q b, z.entryNode? = some n → z.formals.at? i = some q →
      y.formals.at? i = some q ∨ s.Controls n (q.side b))
    (hactuals : ∀ c x' i q b, s.node? c = some x' → x'.actuals.at? i = some q →
      (∃ x, r.node? c = some x ∧ x.actuals.at? i = some q) ∨ s.Controls c (q.side b))
    (hcalls : ∀ c k, s.Calls c k → r.Calls c k ∨ ∃ z, s.graph? k = some z ∧
      ∀ n, z.entryNode? = some n → s.Controls c n)
    (hedges : ∀ a b, s.Controls a b → r.Controls a b ∨ s.Attached m a b ∨
      ∃ g ∉ B, s.Arranged m phiControl g a b) :
    Keeps B r s ∧ s.Wired m phiControl B G := by
  -- a graph is the one that is revised, or it is as before
  have hgraphs : ∀ k y₁ z₁, r.graph? k = some y₁ → s.graph? k = some z₁ →
      k = g ∧ y₁ = y ∧ z₁ = z ∨ k ≠ g ∧ z₁ = y₁ := by
    intro k y₁ z₁ hy₁ hz₁
    by_cases hk : k = g
    · subst hk
      rw [hy] at hy₁
      rw [hz] at hz₁
      cases hy₁
      cases hz₁
      exact Or.inl ⟨rfl, rfl, rfl⟩
    · rw [hother k hk, hy₁] at hz₁
      cases hz₁
      exact Or.inr ⟨hk, rfl⟩
  have hk : Keeps B r s := by
    refine ⟨⟨hg, fun k y₁ z₁ hy₁ hz₁ => ?_, fun k hkB y₁ z₁ hy₁ hz₁ => ?_⟩, hpool⟩
    · rcases hgraphs k y₁ z₁ hy₁ hz₁ with ⟨_, rfl, rfl⟩ | ⟨_, rfl⟩
      · exact hkeeps
      · exact .refl z₁
    · rcases hgraphs k y₁ z₁ hy₁ hz₁ with ⟨rfl, rfl, rfl⟩ | ⟨_, rfl⟩
      · exact hbody.resolve_right fun h => hkB h.1
      · exact .refl z₁
  refine ⟨hk, hr.revise hk.toFollows (fun k z₁ hz₁ => ?_)
    (fun k _ z₁ hz₁ => ?_) (fun k y₁ z₁ hy₁ hz₁ => ?_)
    (fun k y₁ z₁ n i q b hy₁ hz₁ hn hq => ?_) hactuals hcalls hedges⟩
  · by_cases hkg : k = g
    · exact ⟨y, hkg ▸ hy⟩
    · exact ⟨z₁, hother k hkg ▸ hz₁⟩
  · by_cases hkg : k = g
    · subst hkg
      rw [hz] at hz₁
      cases hz₁
      rcases hbody with hs | ⟨_, hs⟩
      · exact (hr.seated k y hy).of_sameNodes hg hs
      · exact hs
    · exact (hr.seated k z₁ (hother k hkg ▸ hz₁)).of_sameNodes hg (.refl z₁)
  · rcases hgraphs k y₁ z₁ hy₁ hz₁ with ⟨_, rfl, rfl⟩ | ⟨_, rfl⟩
    · exact hentry
    · rfl
  · rcases hgraphs k y₁ z₁ hy₁ hz₁ with ⟨_, rfl, rfl⟩ | ⟨_, rfl⟩
    · exact hformals n i q b hn hq
    · exact Or.inl hq

/-- Entries in a graph that its parameters are not about. -/
theorem Wired.reviseGraph (hr : r.Wired m phiControl B G) (hy : r.graph? g = some y)
    (hg : y.Grows (f y)) (hk : y.Keeps (f y))
    (hbody : y.SameNodes (f y) ∨ g ∈ B ∧ (r.reviseGraph g f).Seated m (f y))
    (hentry : (f y).entryNode? = y.entryNode?) (hf : (f y).formals = y.formals) :
    Keeps B r (r.reviseGraph g f) ∧ (r.reviseGraph g f).Wired m phiControl B G := by
  have hgrows : r.Grows (r.reviseGraph g f) := by
    refine .reviseGraph fun y' hy' => ?_
    rw [hy] at hy'
    cases hy'
    exact hg
  have hnode : ∀ n, (r.reviseGraph g f).node? n = r.node? n := fun n => by simp
  have hedges : r.KeepsEdges (r.reviseGraph g f) := .of_nodes hnode
  exact hr.reviseAt hy (by simp [hy]) (fun k hk => by simp [hk]) hgrows (by simp) hk hbody hentry
    (fun n i q b _ hq => Or.inl (hf ▸ hq)) (fun c x' i q b hx' hq => Or.inl ⟨x', hnode c ▸ hx', hq⟩)
    (fun c k hc => Or.inl ((calls_iff_of_nodes hnode c k).1 hc))
    fun a b hab => Or.inl ((hedges.controls_iff a b).1 hab)

/-- Entries in a graph that nodes and parameters are not about. -/
theorem Wired.dress (hr : r.Wired m phiControl B G) (hy : r.graph? g = some y)
    (hs : y.SameNodes (f y)) (hg : y.Grows (f y)) (hf : (f y).formals = y.formals) :
    Keeps B r (r.reviseGraph g f) ∧ (r.reviseGraph g f).Wired m phiControl B G :=
  hr.reviseGraph hy hg hs.keeps (Or.inl hs) hs.entryNode? hf

/-- A new node of an open body, with its entry in the graph. -/
theorem Wired.giveNode {block : BlockKey} (hr : r.Wired m phiControl B G) (hg : g ∈ B)
    (hy : r.graph? g = some y) (hkey : y.index.get? key = none) (hf : ∀ y : Graph, y.SameCore (f y))
    (hentry : ∀ y, (f y).entryNode? = y.entryNode?)
    (hkeeps : y.Keeps (f { y with index := y.index.insert key r.nextNode }))
    (hseated : ((r.giveNode g key (some block)).reviseGraph g f).Seated m
      (f { y with index := y.index.insert key r.nextNode })) :
    Keeps B r ((r.giveNode g key (some block)).reviseGraph g f) ∧
      ((r.giveNode g key (some block)).reviseGraph g f).Wired m phiControl B G := by
  have hgrows : r.Grows ((r.giveNode g key (some block)).reviseGraph g f) :=
    (Grows.giveNode hy hkey (some block)).trans (.reviseGraph fun y _ => (hf y).grows)
  have hnode : ∀ n, ((r.giveNode g key (some block)).reviseGraph g f).node? n =
      if n = r.nextNode then some (.fresh key (some g) (some block)) else r.node? n :=
    fun n => by simp
  have hself : ((r.giveNode g key (some block)).reviseGraph g f).graph? g =
      some (f { y with index := y.index.insert key r.nextNode }) := by
    rw [graph?_reviseGraph, if_pos rfl, Work.graph?_giveNode_self hy]
    rfl
  have hedges : r.KeepsEdges ((r.giveNode g key (some block)).reviseGraph g f) := .of_fresh hnode
  refine hr.reviseAt hy hself (fun k hk => by simp [hk]) hgrows (by simp [Registry.giveNode]; rfl)
    hkeeps (Or.inr ⟨hg, hseated⟩) (hentry _) (fun n i q b _ hq => Or.inl ?_)
    (fun c x' i q b hx' hq => Or.inl (exists_actual_of_fresh hnode hx' hq))
    (fun c k hc => Or.inl ((calls_iff_of_fresh hnode c k).1 hc))
    fun a b hab => Or.inl ((hedges.controls_iff a b).1 hab)
  rwa [(hf _).formals] at hq

/-! ## New edges -/

/-- Where graphs are the same, the new actual parameters, links and edges are what there is to look
at. -/
theorem Wired.of_graphs (hr : r.Wired m phiControl B G) (hg : r.Grows s)
    (hgraph : ∀ k, s.graph? k = r.graph? k)
    (hactuals : ∀ c x' i q b, s.node? c = some x' → x'.actuals.at? i = some q →
      (∃ x, r.node? c = some x ∧ x.actuals.at? i = some q) ∨ s.Controls c (q.side b))
    (hcalls : ∀ c k, s.Calls c k → r.Calls c k)
    (hedges : ∀ a b, s.Controls a b → r.Controls a b ∨ s.Attached m a b ∨
      ∃ g ∉ B, s.Arranged m phiControl g a b) : s.Wired m phiControl B G := by
  have hsame : ∀ k y z, r.graph? k = some y → s.graph? k = some z → z = y := by
    intro k y z hy hz
    rw [hgraph, hy] at hz
    cases hz
    rfl
  refine hr.revise (.of_graphs hg hgraph) (fun k z hz => ⟨z, hgraph k ▸ hz⟩)
    (fun k _ z hz => ?_) (fun k y z hy hz => ?_) (fun k y z n i q b hy hz _ hq => Or.inl ?_)
    hactuals (fun c k hc => Or.inl (hcalls c k hc)) hedges
  · exact (hr.seated k z (hgraph k ▸ hz)).of_sameNodes hg (.refl z)
  · rw [hsame k y z hy hz]
  · rwa [hsame k y z hy hz] at hq

/-- Where of nodes only the edges change, the new edges are. -/
theorem Wired.of_edges (hr : r.Wired m phiControl B G) (hg : r.Grows s)
    (hgraph : ∀ k, s.graph? k = r.graph? k) (hpool : s.pool = r.pool)
    (hnode : ∀ n x', s.node? n = some x' → ∃ x, r.node? n = some x ∧ x'.actuals = x.actuals ∧
      x'.callees = x.callees)
    (hedges : ∀ a b, s.Controls a b → r.Controls a b ∨ s.Attached m a b ∨
      ∃ g ∉ B, s.Arranged m phiControl g a b) :
    Keeps B r s ∧ s.Wired m phiControl B G := by
  refine ⟨⟨.of_graphs hg hgraph, hpool⟩,
    hr.of_graphs hg hgraph (fun c x' i q b hx' hq => Or.inl ?_) (fun c k hc => ?_) hedges⟩
  · obtain ⟨x, hx, hact, _⟩ := hnode c x' hx'
    exact ⟨x, hx, hact ▸ hq⟩
  · obtain ⟨x', hx', hmem⟩ := hc
    obtain ⟨x, hx, _, hcallees⟩ := hnode c x' hx'
    exact ⟨x, hx, hcallees ▸ hmem⟩

/-- The same nodes and graphs have the same edges. -/
theorem Wired.of_views (hr : r.Wired m phiControl B G) (hnode : s.node? = r.node?)
    (hgraph : s.graph? = r.graph?) (hlookup : s.lookup? = r.lookup?) : s.Wired m phiControl B G := by
  have hn := congrFun hnode
  have hg := congrFun hgraph
  have hgrows : r.Grows s :=
    ⟨fun n x hx => ⟨x, hn n ▸ hx, .refl x⟩, fun g y hy => ⟨y, hg g ▸ hy, .refl y⟩,
      fun f g hf => hlookup ▸ hf⟩
  have hedges : r.KeepsEdges s := .of_nodes hn
  exact hr.of_graphs hgrows hg (fun c x' i q b hx' hq => Or.inl ⟨x', hn c ▸ hx', hq⟩)
    (fun c k => (calls_iff_of_nodes hn c k).1)
    fun a b hab => Or.inl ((hedges.controls_iff a b).1 hab)

/-- The shared node of a global has no edges yet. -/
theorem Wired.giveShared (hr : r.Wired m phiControl B G) (v : ValueId) :
    (r.giveShared v).Wired m phiControl B G := by
  have hnode := node?_giveShared r v
  have hgrows : r.Grows (r.giveShared v) := by
    refine ⟨fun n x hx => ⟨x, ?_, .refl x⟩, fun g y hy => ⟨y, hy, .refl y⟩, fun _ _ hf => hf⟩
    rw [hnode, if_neg (ne_nextNode hx), hx]
  have hedges : r.KeepsEdges (r.giveShared v) := .of_fresh hnode
  exact hr.of_graphs hgrows (fun _ => rfl)
    (fun c x' i q b hx' hq => Or.inl (exists_actual_of_fresh hnode hx' hq))
    (fun c k => (calls_iff_of_fresh hnode c k).1)
    fun a b hab => Or.inl ((hedges.controls_iff a b).1 hab)

/-- Edges of data are none of control. -/
theorem Wired.feed (hr : r.Wired m phiControl B G) (a b : NodeId) :
    Keeps B r (r.feed a b) ∧ (r.feed a b).Wired m phiControl B G := by
  refine hr.of_edges (.feed r a b) (fun k => by simp) (by simp) (fun n x' hx' => ?_)
    fun c d hcd => Or.inl ((controls_feed r a b c d).1 hcd)
  rw [node?_feed] at hx'
  obtain ⟨x, hx, rfl⟩ := Option.map_eq_some_iff.1 hx'
  exact ⟨x, hx, rfl, rfl⟩

theorem exists_node_of_control {x' : Node} (hx' : (r.control a b).node? n = some x') :
    ∃ x, r.node? n = some x ∧ x'.actuals = x.actuals ∧ x'.callees = x.callees := by
  rw [node?_control] at hx'
  obtain ⟨x, hx, rfl⟩ := Option.map_eq_some_iff.1 hx'
  exact ⟨x, hx, rfl, rfl⟩

/-- An edge that is due may be added. -/
theorem Wired.control (hr : r.Wired m phiControl B G) (hx : r.node? a = some x)
    (h : r.Attached m a b ∨ ∃ g ∉ B, r.Arranged m phiControl g a b) :
    Keeps B r (r.control a b) ∧ (r.control a b).Wired m phiControl B G := by
  have hk : Follows B r (r.control a b) := .of_graphs (.control r a b) fun k => by simp
  refine hr.of_edges (.control r a b) (fun k => by simp) (by simp)
    (fun n x' hx' => exists_node_of_control hx') fun c d hcd => ?_
  rcases (controls_control hx).1 hcd with hcd | ⟨rfl, rfl⟩
  · exact Or.inl hcd
  · refine Or.inr (h.imp (·.follows hk) ?_)
    intro hp
    obtain ⟨g, hg, harr⟩ := hp
    obtain ⟨y, hy⟩ := harr.exists_graph
    exact ⟨g, hg, harr.grows hk.grows hy (by simpa using hy) (.refl y)⟩

/-- Edges from one node to both ends of a pair. -/
theorem controls_ends {q : ParameterPair} (hc : r.node? c = some x) :
    ((r.control c q.input).control c q.output).Controls a b ↔
      r.Controls a b ∨ a = c ∧ ∃ isOutput, b = q.side isOutput := by
  have hc' := node?_control r c q.input c
  rw [hc] at hc'
  rw [controls_control hc', controls_control hc, or_assoc, ← and_or_left, Bool.exists_bool]
  rfl

theorem exists_node_of_ends {q : ParameterPair} {x' : Node}
    (hx' : ((r.control c q.input).control c q.output).node? n = some x') :
    ∃ x, r.node? n = some x ∧ x'.actuals = x.actuals ∧ x'.callees = x.callees := by
  obtain ⟨x₁, hx₁, ha₁, hc₁⟩ := exists_node_of_control hx'
  obtain ⟨x₂, hx₂, ha₂, hc₂⟩ := exists_node_of_control hx₁
  exact ⟨x₂, hx₂, ha₁.trans ha₂, hc₁.trans hc₂⟩

/-! ## New parameters -/

/-- A new formal parameter with its edges from the entry. -/
theorem Wired.giveFormal {en : NodeId} (hr : r.Wired m phiControl B G) (hy : r.graph? g = some y)
    (hen : y.entryNode? = some en) (hv : y.formals.Vacant i)
    (hx : (r.giveFormal g key i).node? en = some x) :
    Keeps B r (((r.giveFormal g key i).control en r.nextPair.input).control en r.nextPair.output) ∧
      (((r.giveFormal g key i).control en r.nextPair.input).control en
        r.nextPair.output).Wired m phiControl B G := by
  have hedges := fun a b => controls_ends (a := a) (b := b) (q := r.nextPair) hx
  have hself : (((r.giveFormal g key i).control en r.nextPair.input).control en
      r.nextPair.output).graph? g = some { y with formals := y.formals.put i r.nextPair } := by
    simp [hy]
  have hgrows : r.Grows (((r.giveFormal g key i).control en r.nextPair.input).control en
      r.nextPair.output) :=
    (Grows.giveFormal hy hv key).trans ((Grows.control _ _ _).trans (.control _ _ _))
  have hbody : y.SameNodes { y with formals := y.formals.put i r.nextPair } :=
    .of_units rfl rfl rfl rfl rfl rfl rfl
  refine hr.reviseAt hy hself (fun k hk => by simp [hk]) hgrows
    (by simp [Registry.giveFormal]; rfl) hbody.keeps (Or.inl hbody) rfl
    (fun n j q b hn hq => ?_) (fun c x' j q b hx' hq => Or.inl ?_) (fun c k hc => Or.inl ?_)
    fun a b hab => ?_
  · -- the slot is the new one, or it was filled before
    change (y.formals.put i r.nextPair).at? j = some q at hq
    rw [Parameters.at?_put hv] at hq
    split at hq
    · cases hq
      have hn' : n = en := Option.some.inj (hn.symm.trans hen)
      exact Or.inr ((hedges _ _).2 (Or.inr ⟨hn', b, rfl⟩))
    · exact Or.inl hq
  · -- a new node is no call and passes nothing
    obtain ⟨x₁, hx₁, hact, _⟩ := exists_node_of_ends hx'
    rw [node?_giveFormal] at hx₁
    split at hx₁
    · cases hx₁
      rw [hact, Node.actuals, Node.fresh, Option.getD_none, Parameters.at?_empty] at hq
      cases hq
    · exact ⟨x₁, hx₁, hact ▸ hq⟩
  · -- and it is linked to nothing
    obtain ⟨x', hx', hmem⟩ := hc
    obtain ⟨x₁, hx₁, _, hcallees⟩ := exists_node_of_ends hx'
    rw [node?_giveFormal] at hx₁
    split at hx₁
    · cases hx₁
      rw [hcallees] at hmem
      exact absurd hmem (OrderedSet.not_mem_empty k)
    · exact ⟨x₁, hx₁, hcallees ▸ hmem⟩
  · -- an edge is an old one, or one of the two from the entry to the pair
    rcases (hedges a b).1 hab with hab | ⟨rfl, isOutput, rfl⟩
    · exact Or.inl (((keepsEdges_giveFormal r g key i).controls_iff a b).1 hab)
    · refine Or.inr (Or.inl (.formal isOutput hself hen (s := i) ?_ rfl))
      exact (Parameters.at?_put hv).trans (if_pos rfl)

/-- A new actual parameter with its edges from the call. -/
theorem Wired.giveActual (hr : r.Wired m phiControl B G) (hx : r.node? c = some x)
    (hv : x.actuals.Vacant i) :
    Keeps B r (((r.giveActual c g key i).control c r.nextPair.input).control c r.nextPair.output) ∧
      (((r.giveActual c g key i).control c r.nextPair.input).control c
        r.nextPair.output).Wired m phiControl B G := by
  have hx' : (r.giveActual c g key i).node? c =
      some { x with actuals? := some (x.actuals.put i r.nextPair) } := by
    rw [node?_giveActual hx, if_neg (ne_nextPair hx), if_pos rfl]
  have hedges := fun a b => controls_ends (a := a) (b := b) (q := r.nextPair) hx'
  have hcall : ∃ z, (((r.giveActual c g key i).control c r.nextPair.input).control c
      r.nextPair.output).node? c = some z ∧ z.actuals = x.actuals.put i r.nextPair := by
    rw [node?_control, node?_control, hx']
    exact ⟨_, rfl, rfl⟩
  -- the new pair is in no place of a graph, so graphs show what they showed
  have hgrows : r.Grows (((r.giveActual c g key i).control c r.nextPair.input).control c
      r.nextPair.output) :=
    (Grows.giveActual hx hv g key).trans ((Grows.control _ _ _).trans (.control _ _ _))
  have hgraph : ∀ k, (((r.giveActual c g key i).control c r.nextPair.input).control c
      r.nextPair.output).graph? k = r.graph? k := fun k => by simp
  refine ⟨⟨.of_graphs hgrows hgraph, by simp [Registry.giveActual]; rfl⟩,
    hr.of_graphs hgrows hgraph (fun d z j q b hz hq => ?_) (fun d k hd => ?_) fun a b hab => ?_⟩
  · obtain ⟨z₁, hz₁, hact, _⟩ := exists_node_of_ends hz
    rw [hact] at hq
    rw [node?_giveActual hx] at hz₁
    split at hz₁
    · cases hz₁
      rw [Node.actuals, Node.fresh, Option.getD_none, Parameters.at?_empty] at hq
      cases hq
    split at hz₁
    · rename_i hd
      cases hz₁
      change (x.actuals.put i r.nextPair).at? j = some q at hq
      -- the slot is the new one, or it was filled before
      rw [Parameters.at?_put hv] at hq
      split at hq
      · cases hq
        exact Or.inr ((hedges _ _).2 (Or.inr ⟨hd, b, rfl⟩))
      · exact Or.inl ⟨x, hd ▸ hx, hq⟩
    · exact Or.inl ⟨z₁, hz₁, hq⟩
  · obtain ⟨z, hz, hmem⟩ := hd
    obtain ⟨z₁, hz₁, _, hcallees⟩ := exists_node_of_ends hz
    rw [hcallees] at hmem
    rw [node?_giveActual hx] at hz₁
    split at hz₁
    · cases hz₁
      exact absurd hmem (OrderedSet.not_mem_empty k)
    split at hz₁
    · rename_i hd
      cases hz₁
      exact ⟨x, hd ▸ hx, hmem⟩
    · exact ⟨z₁, hz₁, hmem⟩
  · rcases (hedges a b).1 hab with hab | ⟨rfl, isOutput, rfl⟩
    · exact Or.inl (((keepsEdges_giveActual hx g key i).controls_iff a b).1 hab)
    · obtain ⟨z, hz, hact⟩ := hcall
      refine Or.inr (Or.inl (.actual isOutput hz (s := i) ?_ rfl))
      rw [hact]
      exact (Parameters.at?_put hv).trans (if_pos rfl)

/-! ## New links -/

/-- A new link with its edge. -/
theorem Wired.link {en : NodeId} (hr : r.Wired m phiControl B G) (hx : r.node? c = some x)
    (hy : r.graph? g = some y) (hen : y.entryNode? = some en) :
    Keeps B r ((r.link c g).control c en) ∧
      ((r.link c g).control c en).Wired m phiControl B G := by
  have hx' : (r.link c g).node? c = some { x with callees := x.callees.insert g } := by
    rw [node?_link, if_pos rfl, hx]
    rfl
  have hcalls : ∀ d k, ((r.link c g).control c en).Calls d k → r.Calls d k ∨ d = c ∧ k = g := by
    intro d k hd
    obtain ⟨z, hz, hmem⟩ := hd
    obtain ⟨z₁, hz₁, _, hcallees⟩ := exists_node_of_control hz
    exact (calls_link hx d k).1 ⟨z₁, hz₁, hcallees ▸ hmem⟩
  have hself : ((r.link c g).control c en).graph? g =
      some { y with callers := y.callers.insert c, refcount := y.refcount + 1 } := by
    rw [graph?_control, graph?_link, if_pos rfl, hy]
    rfl
  have hcontrols : ((r.link c g).control c en).Controls c en :=
    (controls_control hx').2 (Or.inr ⟨rfl, rfl⟩)
  have hlinked : ((r.link c g).control c en).Calls c g := by
    refine Calls.grows (.control _ _ _) ((calls_link hx c g).2 (Or.inr ⟨rfl, rfl⟩))
  have hbody : y.SameNodes { y with callers := y.callers.insert c, refcount := y.refcount + 1 } :=
    .of_units rfl rfl rfl rfl rfl rfl rfl
  refine hr.reviseAt hy hself (fun k hk => by simp [hk]) ((Grows.link r c g).trans (.control _ _ _))
    (by simp [Registry.link]) hbody.keeps (Or.inl hbody) rfl (fun n j q b _ hq => Or.inl hq)
    (fun d z j q b hz hq => Or.inl ?_) (fun d k hd => ?_) fun a b hab => ?_
  · -- a link gives no actual parameters
    obtain ⟨z₁, hz₁, hact, _⟩ := exists_node_of_control hz
    rw [node?_link] at hz₁
    split at hz₁
    · obtain ⟨z₂, hz₂, rfl⟩ := Option.map_eq_some_iff.1 hz₁
      exact ⟨z₂, hz₂, hact ▸ hq⟩
    · exact ⟨z₁, hz₁, hact ▸ hq⟩
  · -- the new link comes with its edge, old links have theirs
    rcases hcalls d k hd with hd | ⟨rfl, rfl⟩
    · exact Or.inl hd
    · refine Or.inr ⟨_, hself, fun n hn => ?_⟩
      cases hen.symm.trans hn
      exact hcontrols
  · rcases (controls_control hx').1 hab with hab | ⟨rfl, rfl⟩
    · exact Or.inl (((keepsEdges_link r c g).controls_iff a b).1 hab)
    · exact Or.inr (Or.inl (.call hlinked hself hen))

/-! ## Exceptions -/

/-- A body that is complete asks for its edges. -/
theorem Wired.seal (hr : r.Wired m phiControl (insert g B) G) : r.Wired m phiControl B G where
  within := (Set.subset_insert g B).trans hr.within
  live := hr.live
  seated := hr.seated
  formals := hr.formals
  actuals := hr.actuals
  calls := hr.calls
  arranged := hr.arranged
  sound a b hab := by
    refine (hr.sound a b hab).imp_right fun hp => ?_
    obtain ⟨h, hh, harr⟩ := hp
    exact ⟨h, fun hB => hh (Set.mem_insert_of_mem g hB), harr⟩

/-- A graph that has all edges that its body asks for is an exception no more. -/
theorem Wired.close (hr : r.Wired m phiControl B (insert g G)) (hB : B ⊆ G)
    (hg : ∀ a b, r.Arranged m phiControl g a b → r.Controls a b) : r.Wired m phiControl B G where
  within := hB
  live h hh := hr.live h (Set.mem_insert_of_mem g hh)
  seated := hr.seated
  formals := hr.formals
  actuals := hr.actuals
  calls := hr.calls
  arranged h hh a b hab := by
    by_cases hhg : h = g
    · exact hg a b (hhg ▸ hab)
    · refine hr.arranged h (fun hi => ?_) a b hab
      exact hi.elim hhg hh
  sound := hr.sound

end Registry

end Sdg
