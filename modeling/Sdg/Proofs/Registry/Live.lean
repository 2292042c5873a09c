import Sdg.Proofs.Registry.Pieces

/-!
# Pieces of building at what is live

The rules for the pieces of work where the nodes and graphs that they are about are known to be
live. They admit faults of any kind. That a node or a graph is gone is then no fault that could
happen; of a key in use or a unit that is not there the rules ask that the fault is one of those
admitted.
-/

namespace Sdg

namespace Work

open Registry

variable {β : Type} {bad : Fault → Prop} {Q : β → Registry → Prop} {r : Registry} {g : GraphId}
  {n a b : NodeId} {x z : Node} {y : Graph}

/-! ## Nodes -/

theorem wp_node_live {k : Node → Work β} (hx : r.node? n = some x) (h : wp bad (k x) Q r) :
    wp bad (node n >>= k) Q r := by
  refine wp_node (fun x' hx' => ?_) fun hn => ?_
  · rw [hx] at hx'
    cases hx'
    exact h
  · rw [hx] at hn
    cases hn

theorem wp_updateNode_live {f : Node → Node} {k : Unit → Work β} (hx : r.node? n = some x)
    (h : wp bad (k ()) Q (r.reviseNode n f)) : wp bad (updateNode n f >>= k) Q r := by
  unfold updateNode putNode
  rw [bind_assoc]
  refine wp_node_live hx (wp_modifyRegistry ?_)
  rw [reviseNode_eq hx f]
  exact h

/-- A node that is live is so after a revision. -/
theorem exists_node_reviseNode (hx : r.node? n = some x) (k : NodeId) (f : Node → Node) :
    ∃ x', (r.reviseNode k f).node? n = some x' := by
  rw [node?_reviseNode, hx]
  split <;> exact ⟨_, rfl⟩

theorem wp_addControl_live {k : Unit → Work β} (ha : r.node? a = some x) (hb : r.node? b = some z)
    (h : wp bad (k ()) Q (r.control a b)) : wp bad (addControl a b >>= k) Q r := by
  unfold addControl
  rw [bind_assoc]
  refine wp_updateNode_live ha ?_
  obtain ⟨z', hz'⟩ := exists_node_reviseNode hb a
    fun x => { x with controls := x.controls.insert b }
  exact wp_updateNode_live hz' h

theorem wp_addData_live {k : Unit → Work β} (ha : r.node? a = some x) (hb : r.node? b = some z)
    (h : wp bad (k ()) Q (r.feed a b)) : wp bad (addData a b >>= k) Q r := by
  unfold addData
  rw [bind_assoc]
  refine wp_updateNode_live ha ?_
  obtain ⟨z', hz'⟩ := exists_node_reviseNode hb a fun x => { x with feeds := x.feeds.insert b }
  exact wp_updateNode_live hz' h

theorem wp_addPair_live {key : NodeKey} {c : NodeId} {k : ParameterPair → Work β}
    (hc : r.node? c = some x) (h : wp bad (k r.nextPair) Q
      (((r.pushPair g key).control c r.nextPair.input).control c r.nextPair.output)) :
    wp bad (addPair g key c >>= k) Q r := by
  -- the controller and the new nodes are live, also after the first of both edges
  have hc' : (r.pushPair g key).node? c = some x := by
    rw [node?_pushPair, if_neg (ne_nextPair hc), hc]
  have hi : (r.pushPair g key).node? r.nextPair.input = some (.fresh key (some g) none) := by simp
  have hc'' := node?_control (r.pushPair g key) c r.nextPair.input c
  have ho := node?_control (r.pushPair g key) c r.nextPair.input r.nextPair.output
  rw [hc'] at hc''
  rw [node?_pushPair, if_pos (Or.inr rfl)] at ho
  exact wp_pushPair (wp_addControl_live hc' hi (wp_addControl_live hc'' ho h))

theorem wp_owner_live {k : GraphId → Work β} (ho : r.OwnedBy n g) (h : wp bad (k g) Q r) :
    wp bad (owner n >>= k) Q r := by
  obtain ⟨x, hx, hg⟩ := ho
  unfold owner
  rw [bind_assoc]
  refine wp_node_live hx ?_
  rw [hg]
  exact wp_require (fun g' hg' => by cases hg'; exact h) nofun

/-- A call may be linked. -/
theorem wp_checkCall_live {m : Module} {args : List ValueId} {k : Unit → Work β}
    (hc : r.IsCall m n g args) (h : wp bad (k ()) Q r) : wp bad (checkCall m n >>= k) Q r := by
  obtain ⟨x, _, callee, hx, _, _, _, hop, _⟩ := hc
  unfold checkCall
  rw [bind_assoc]
  refine wp_node_live hx ?_
  dsimp only
  rw [hop]
  exact h

/-! ## Graphs -/

theorem wp_graph_live {k : Graph → Work β} (hy : r.graph? g = some y) (h : wp bad (k y) Q r) :
    wp bad (graph g >>= k) Q r := by
  refine wp_graph (fun y' hy' => ?_) fun hn => ?_
  · rw [hy] at hy'
    cases hy'
    exact h
  · rw [hy] at hn
    cases hn

theorem wp_updateGraph_live {f : Graph → Graph} {k : Unit → Work β} (hy : r.graph? g = some y)
    (h : wp bad (k ()) Q (r.reviseGraph g f)) : wp bad (updateGraph g f >>= k) Q r := by
  unfold updateGraph putGraph
  rw [bind_assoc]
  refine wp_graph_live hy (wp_modifyRegistry ?_)
  rw [reviseGraph_eq hy f]
  exact h

theorem wp_entry_live {k : NodeId → Work β} (hy : r.graph? g = some y)
    (hn : y.entryNode? = some n) (h : wp bad (k n) Q r) : wp bad (entry g >>= k) Q r := by
  unfold entry
  rw [bind_assoc]
  refine wp_graph_live hy ?_
  rw [hn]
  exact wp_require (fun n' hn' => by cases hn'; exact h) nofun

/-- A graph without a variadic pair takes one. -/
theorem wp_setVariadic_live {q : ParameterPair} {k : Unit → Work β} (hy : r.graph? g = some y)
    (hv : y.formals.Vacant .variadic) (h : wp bad (k ()) Q
      (r.reviseGraph g fun y => { y with formals := y.formals.put .variadic q })) :
    wp bad (setVariadic g q >>= k) Q r := by
  unfold setVariadic putGraph
  rw [bind_assoc]
  refine wp_graph_live hy ?_
  rw [Parameters.setVariadic?_eq_some_iff.2 ⟨hv, rfl⟩, bind_assoc]
  refine wp_require (fun p hp => ?_) nofun
  cases hp
  refine wp_modifyRegistry ?_
  rw [reviseGraph_eq hy fun y => { y with formals := y.formals.put .variadic q }]
  exact h

/-! ## Units -/

theorem wp_updateUnit_live {key : BlockKey} {f : BlockUnit → BlockUnit} {k : Unit → Work β}
    (hy : r.graph? g = some y)
    (h : ∀ u, y.unit? key = some u →
      wp bad (k ()) Q (r.reviseGraph g fun y => y.modifyUnit key f))
    (hbad : y.unit? key = none → bad (.missingUnit key)) :
    wp bad (updateUnit g key f >>= k) Q r := by
  unfold updateUnit putGraph
  rw [bind_assoc]
  refine wp_graph_live hy ?_
  rw [bind_assoc]
  refine wp_require (fun u hu => wp_modifyRegistry ?_) hbad
  rw [reviseGraph_eq hy fun y => y.modifyUnit key f]
  exact h u hu

/-- A change of a unit and then of another: both are there at first. -/
theorem wp_updateUnits_live {c d : BlockKey} {f f' : BlockUnit → BlockUnit} {k : Unit → Work β}
    (hy : r.graph? g = some y)
    (h : ∀ u w, y.unit? c = some u → y.unit? d = some w →
      wp bad (k ()) Q (r.reviseGraph g fun y => (y.modifyUnit c f).modifyUnit d f'))
    (hc : y.unit? c = none → bad (.missingUnit c)) (hd : y.unit? d = none → bad (.missingUnit d)) :
    wp bad (updateUnit g c f >>= fun _ => updateUnit g d f' >>= k) Q r := by
  refine wp_updateUnit_live hy (fun u hu => ?_) hc
  have hy' : (r.reviseGraph g fun y => y.modifyUnit c f).graph? g = some (y.modifyUnit c f) := by
    simp [hy]
  refine wp_updateUnit_live hy' (fun w hw => ?_) fun hn => hd ?_
  · obtain ⟨w', hw', _⟩ := Graph.exists_unit_of_modifyUnit hw
    rw [reviseGraph_reviseGraph]
    exact h u w' hu hw'
  · -- a change of one unit takes none away
    cases hw : y.unit? d with
    | none => rfl
    | some w =>
      obtain ⟨w', hw'⟩ := Graph.exists_unit_modifyUnit hw c f
      rw [hn] at hw'
      cases hw'

theorem wp_addUnitEdge_live {c d : BlockKey} {label : Nat} {k : Unit → Work β}
    (hy : r.graph? g = some y)
    (h : ∀ u w, y.unit? c = some u → y.unit? d = some w →
      wp bad (k ()) Q (r.reviseGraph g fun y => y.lead c d label))
    (hc : y.unit? c = none → bad (.missingUnit c)) (hd : y.unit? d = none → bad (.missingUnit d)) :
    wp bad (addUnitEdge g c d label >>= k) Q r := by
  unfold addUnitEdge
  rw [bind_assoc]
  exact wp_updateUnits_live hy h hc hd

theorem wp_addUnitControl_live {c d : BlockKey} {k : Unit → Work β} (hy : r.graph? g = some y)
    (h : ∀ u w, y.unit? c = some u → y.unit? d = some w →
      wp bad (k ()) Q (r.reviseGraph g fun y => y.govern c d))
    (hc : y.unit? c = none → bad (.missingUnit c)) (hd : y.unit? d = none → bad (.missingUnit d)) :
    wp bad (addUnitControl g c d >>= k) Q r := by
  unfold addUnitControl
  rw [bind_assoc]
  exact wp_updateUnits_live hy h hc hd

/-! ## Nodes of graphs -/

/-- A new indexed node. -/
theorem wp_indexNode_live {key : NodeKey} {block? : Option BlockKey} {k : NodeId → Work β}
    (hy : r.graph? g = some y)
    (h : y.index.get? key = none → wp bad (k r.nextNode) Q (r.giveNode g key block?))
    (hbad : y.index.get? key ≠ none → bad (.duplicate key g)) :
    wp bad (newNode (.fresh key (some g) block?) >>= fun n =>
      indexNode g key n >>= fun _ => k n) Q r := by
  have hy' : (r.pushNode (.fresh key (some g) block?)).graph? g = some y := hy
  refine wp_newNode ?_
  unfold indexNode
  rw [bind_assoc]
  refine wp_graph_live hy' ?_
  cases hkey : y.index.contains key with
  | true =>
    obtain ⟨i, hi⟩ := OrderedMap.contains_eq_true_iff.1 hkey
    exact wp_throw (hbad (by simp [hi]))
  | false =>
    simp only [Bool.false_eq_true, if_false, putGraph]
    refine wp_modifyRegistry ?_
    rw [reviseGraph_eq hy' fun y => { y with index := y.index.insert key r.nextNode }]
    exact h (OrderedMap.contains_eq_false_iff.1 hkey)

theorem wp_addNode_live {key : NodeKey} {k : NodeId → Work β} (hy : r.graph? g = some y)
    (h : y.index.get? key = none → wp bad (k r.nextNode) Q (r.giveNode g key none))
    (hbad : y.index.get? key ≠ none → bad (.duplicate key g)) :
    wp bad (addNode g key >>= k) Q r := by
  unfold addNode
  simp only [ownedNode_eq, bind_assoc, pure_bind]
  exact wp_indexNode_live hy h hbad

/-- A graph with one more indexed node. -/
theorem graph?_giveNode_self {key : NodeKey} {block? : Option BlockKey} (hy : r.graph? g = some y) :
    (r.giveNode g key block?).graph? g =
      some { y with index := y.index.insert key r.nextNode } := by
  rw [graph?_giveNode, if_pos rfl, hy]
  rfl

theorem wp_addUnitNode_live {key : NodeKey} {block : BlockKey} {k : NodeId → Work β}
    (hy : r.graph? g = some y)
    (h : ∀ u, y.index.get? key = none → y.unit? block = some u → wp bad (k r.nextNode) Q
      ((r.giveNode g key (some block)).reviseGraph g fun y =>
        y.modifyUnit block fun u => { u with nodes := u.nodes ++ [r.nextNode] }))
    (hbad : y.index.get? key ≠ none → bad (.duplicate key g))
    (hunit : y.unit? block = none → bad (.missingUnit block)) :
    wp bad (addUnitNode g block key >>= k) Q r := by
  unfold addUnitNode
  simp only [ownedNode_eq, bind_assoc, pure_bind]
  refine wp_indexNode_live hy (fun hkey => ?_) hbad
  have hunits := Graph.unit?_index y (y.index.insert key r.nextNode) block
  refine wp_updateUnit_live (graph?_giveNode_self hy) (fun u hu => ?_) fun hn => ?_
  · exact h u hkey (hunits ▸ hu)
  · exact hunit (hunits ▸ hn)

end Work

end Sdg
