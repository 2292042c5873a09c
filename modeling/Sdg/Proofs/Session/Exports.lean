import Sdg.Proofs.Session.Lookups
import Sdg.Proofs.Session.Portraits

/-!
# Exports

What is exported numbers the live nodes anew and leaves out whatever has no number. Between steps
nothing is left out. The ids that a registry keeps are in range, whatever was asked for or given, so
all nodes have labels; the ends of all edges are live; and no unit is empty, so each edge between
units has a node at either end.

Main results:

* `Session.Reachable.within` — in a closed module all ids that a registry keeps are in range;
* `Session.Reachable.exported` — the export shows the live nodes, and one edge for each reason to
  have one.
-/

namespace Sdg

open Registry

/-! ## Ids in range -/

namespace Session

variable {m : Module} {s : Session}

/-- In a closed module the ids that a registry keeps are in range. What steps ask for or hand over
need not be: a step that comes upon an id without an entry is not taken. -/
theorem Reachable.within (hm : m.IsClosed) (hs : Reachable m s) :
    s.setup.Answers False ∧ s.registry.Within m := by
  induction hs with
  | start => exact ⟨hm.standard_answers False, .empty m⟩
  | @step s t a o hs hstep ih =>
    obtain ⟨hanswers, hwithin⟩ := ih
    have hprogram : s.setup.program = m := hs.steady.1
    have ht : Reachable m t := .step hs hstep
    -- a function that was asked for has a graph now
    have hasked : ∀ f, a = .getOrBuild f → f.Within s.setup.program := by
      intro f hf
      subst hf
      have hgiven := Session.effect hs.orderly hstep
      generalize hr : t.registry = r at hgiven
      cases hgiven with
      | given _ hhosts =>
        obtain ⟨y, hy, rfl⟩ := hhosts
        obtain ⟨x, hx, _⟩ := ht.exists_mirror (hr ▸ hy)
        rw [hprogram]
        exact Module.index_lt_of_function hx
    rw [← hprogram] at hwithin
    have hafter := of_step (resolves_work hanswers hasked _ hwithin) hstep
    rw [hprogram] at hafter
    rw [setup_of_step hstep]
    exact ⟨answers_reconfigure hanswers False.elim, hafter⟩

end Session

/-! ## Reasons for edges -/

/-- A reason for an edge in an export. -/
inductive Tie where
  /-- Node `a` controls node `b`. -/
  | control (a b : NodeId)
  /-- Node `b` depends on the data of node `a`. -/
  | data (a b : NodeId)
  /-- In the graph `g` unit `a` controls unit `b`. -/
  | units (g : GraphId) (a b : BlockKey)

namespace Registry

/-- Whether a registry gives the reason `t` for an edge. -/
def Ties (r : Registry) : Tie → Prop
  | .control a b => r.Controls a b
  | .data a b => r.Feeds a b
  | .units g a b => ∃ y, r.graph? g = some y ∧ y.Governs a b

/-- The edge that there is for a reason: between the nodes that it names, or from the last node of
one unit to the first node of the other. -/
def tied? (r : Registry) : Tie → Option (NodeId × NodeId × EdgeKind)
  | .control a b => some (a, b, .control)
  | .data a b => some (a, b, .data)
  | .units g a b => do
    let y ← r.graph? g
    let last ← (y.unit? a).bind (·.last?)
    let first ← (y.unit? b).bind (·.first?)
    return (last, first, .control)

end Registry

/-- What is exported shows the registry `r`. -/
structure Export.Shows (x : Export) (r : Registry) : Prop where
  /-- The nodes stand in the order of their ids. -/
  ordered : x.nodes.Pairwise fun z w => z.id.index < w.id.index
  live : ∀ n, (∃ z ∈ x.nodes, z.id = n) ↔ ∃ y, r.node? n = some y
  keyed : ∀ z ∈ x.nodes, r.Keyed z.id z.key
  owned : ∀ z ∈ x.nodes, ∀ f, z.function? = some f ↔ ∃ g, r.OwnedBy z.id g ∧ r.Hosts g f
  shared : ∀ z ∈ x.nodes, z.function? = none ↔ z.id ∈ r.pool.values
  found : ∀ n i, x.find? n = some i ↔ ∃ z, x.nodes[i]? = some z ∧ z.id = n
  lost : ∀ n, x.find? n = none ↔ r.node? n = none
  /-- The edges are one for each reason to have one, between the positions of its nodes. -/
  edges : ∃ ties : List Tie, ties.Nodup ∧ (∀ t, t ∈ ties ↔ r.Ties t) ∧
    List.Forall₂ (fun t e => ∃ a b, r.tied? t = some (a, b, e.kind) ∧
      x.find? a = some e.source ∧ x.find? b = some e.target) ties x.edges

namespace Registry

variable {m : Module} {r : Registry} {n : NodeId} {x : Export} {t : Tie}

/-! ## All reasons -/

/-- The reasons for edges, in the order in which they are exported. -/
def ties (r : Registry) : List Tie :=
  (r.liveNodes.flatMap fun p =>
      p.2.controls.toList.map (.control p.1) ++ p.2.feeds.toList.map (.data p.1))
    ++ r.liveGraphs.flatMap fun p => p.2.units.entries.flatMap fun u =>
      u.2.controls.toList.map (.units p.1 (.block u.1))

/-- Lists of named parts have no element twice if each element tells the name of its part. -/
theorem nodup_flatMap_of_names {α β γ : Type} {l : List (α × β)} {f : α × β → List γ}
    (hl : (l.map Prod.fst).Nodup) (hnodup : ∀ p ∈ l, (f p).Nodup) (name : γ → Option α)
    (hname : ∀ p ∈ l, ∀ t ∈ f p, name t = some p.1) : (l.flatMap f).Nodup := by
  refine List.nodup_flatMap.2 ⟨hnodup, ?_⟩
  refine (List.Nodup.of_map _ hl).imp_of_mem fun {p q} hp hq hne t ht ht' => hne ?_
  have hsame := (hname p hp t ht).symm.trans (hname q hq t ht')
  exact List.inj_on_of_nodup_map hl hp hq (Option.some.inj hsame)

theorem nodup_ties (r : Registry) : r.ties.Nodup := by
  refine List.Nodup.append ?_ ?_ ?_
  · -- edges that start at different nodes differ
    refine nodup_flatMap_of_names r.nodup_nodeNames (fun p _ => ?_)
      (fun | .control a _ | .data a _ => some a | .units .. => none) fun p _ t ht => ?_
    · refine (p.2.controls.nodup.map fun _ _ h => (Tie.control.inj h).2).append
        (p.2.feeds.nodup.map fun _ _ h => (Tie.data.inj h).2) fun t ht ht' => ?_
      obtain ⟨_, _, rfl⟩ := List.mem_map.1 ht
      obtain ⟨_, _, he⟩ := List.mem_map.1 ht'
      cases he
    · rcases List.mem_append.1 ht with ht | ht
      · obtain ⟨_, _, rfl⟩ := List.mem_map.1 ht
        rfl
      · obtain ⟨_, _, rfl⟩ := List.mem_map.1 ht
        rfl
  · -- edges of different graphs differ, and in a graph those of different blocks
    refine nodup_flatMap_of_names r.nodup_graphNames (fun p _ => ?_)
      (fun | .units g _ _ => some g | _ => none) fun p _ t ht => ?_
    · refine nodup_flatMap_of_names p.2.units.nodup_keys (fun u _ => ?_)
        (fun | .units _ (.block k) _ => some k | _ => none) fun u _ t ht => ?_
      · exact u.2.controls.nodup.map fun _ _ h => (Tie.units.inj h).2.2
      · obtain ⟨_, _, rfl⟩ := List.mem_map.1 ht
        rfl
    · obtain ⟨u, _, ht⟩ := List.mem_flatMap.1 ht
      obtain ⟨_, _, rfl⟩ := List.mem_map.1 ht
      rfl
  · -- edges of nodes are not edges of units
    intro t ht ht'
    obtain ⟨_, _, ht⟩ := List.mem_flatMap.1 ht
    obtain ⟨_, _, ht'⟩ := List.mem_flatMap.1 ht'
    obtain ⟨_, _, ht'⟩ := List.mem_flatMap.1 ht'
    obtain ⟨_, _, rfl⟩ := List.mem_map.1 ht'
    rcases List.mem_append.1 ht with ht | ht
    · obtain ⟨_, _, he⟩ := List.mem_map.1 ht
      cases he
    · obtain ⟨_, _, he⟩ := List.mem_map.1 ht
      cases he

/-- In a live graph the unit of the exit controls nothing. -/
def Idle (r : Registry) : Prop := ∀ g y, r.graph? g = some y → ∀ b, ¬ y.Governs .exit b

theorem mem_ties (hidle : r.Idle) : t ∈ r.ties ↔ r.Ties t := by
  have hnode : ∀ p : NodeId × Node, t ∈ p.2.controls.toList.map (Tie.control p.1) ++
      p.2.feeds.toList.map (.data p.1) ↔
        (∃ b ∈ p.2.controls, t = .control p.1 b) ∨ ∃ b ∈ p.2.feeds, t = .data p.1 b := by
    intro p
    rw [List.mem_append, List.mem_map, List.mem_map]
    simp only [OrderedSet.mem_def, eq_comm]
  unfold ties
  rw [List.mem_append, List.mem_flatMap, List.mem_flatMap]
  constructor
  · rintro (⟨⟨n, x⟩, hx, ht⟩ | ⟨⟨g, y⟩, hy, ht⟩)
    · rw [mem_liveNodes] at hx
      rcases (hnode _).1 ht with ⟨b, hb, rfl⟩ | ⟨b, hb, rfl⟩
      · exact ⟨x, hx, hb⟩
      · exact ⟨x, hx, hb⟩
    · obtain ⟨⟨k, u⟩, hu, ht⟩ := List.mem_flatMap.1 ht
      obtain ⟨b, hb, rfl⟩ := List.mem_map.1 ht
      exact ⟨y, mem_liveGraphs.1 hy, u, OrderedMap.mem_entries.1 hu, hb⟩
  · intro ht
    cases t with
    | control a b =>
      obtain ⟨x, hx, hb⟩ := ht
      exact Or.inl ⟨(a, x), mem_liveNodes.2 hx, (hnode _).2 (Or.inl ⟨b, hb, rfl⟩)⟩
    | data a b =>
      obtain ⟨x, hx, hb⟩ := ht
      exact Or.inl ⟨(a, x), mem_liveNodes.2 hx, (hnode _).2 (Or.inr ⟨b, hb, rfl⟩)⟩
    | units g a b =>
      obtain ⟨y, hy, hgoverns⟩ := ht
      refine Or.inr ⟨(g, y), mem_liveGraphs.2 hy, List.mem_flatMap.2 ?_⟩
      cases a with
      -- the unit of the exit controls nothing, so no edge of it is missing from the list
      | exit => exact absurd hgoverns (hidle g y hy b)
      | block k =>
        obtain ⟨u, hu, hb⟩ := hgoverns
        exact ⟨(k, u), OrderedMap.mem_entries.2 hu, List.mem_map.2 ⟨b, hb, rfl⟩⟩

/-- The edges are those that there are for the reasons. -/
theorem edgeEnds_eq (r : Registry) : r.edgeEnds = r.ties.filterMap r.tied? := by
  unfold edgeEnds ties
  rw [List.filterMap_append, List.filterMap_flatMap, List.filterMap_flatMap]
  congr 1
  · refine List.flatMap_congr fun p _ => ?_
    obtain ⟨n, x⟩ := p
    have hsome : ∀ (kind : EdgeKind) (l : List NodeId),
        l.map (fun b => (n, b, kind)) = l.filterMap fun b => some (n, b, kind) :=
      fun _ l => congrFun List.filterMap_eq_map'.symm l
    rw [List.filterMap_append, List.filterMap_map, List.filterMap_map]
    exact congrArg₂ (· ++ ·) (hsome .control x.controls.toList) (hsome .data x.feeds.toList)
  · refine List.flatMap_congr fun p hp => ?_
    obtain ⟨g, y⟩ := p
    show y.units.values.flatMap _ = _
    rw [List.filterMap_flatMap, OrderedMap.values, List.flatMap_map]
    refine List.flatMap_congr fun u hu => ?_
    obtain ⟨k, u⟩ := u
    rw [List.filterMap_map]
    refine List.filterMap_congr fun b _ => ?_
    have hu : y.unit? (.block k) = some u := OrderedMap.mem_entries.1 hu
    show _ = r.tied? (.units g (.block k) b)
    simp [tied?, mem_liveGraphs.1 hp, hu]

/-- Every reason makes an edge, since no unit is empty. -/
theorem Complete.exists_tied (hr : r.Complete m) (ht : r.Ties t) : ∃ p, r.tied? t = some p := by
  cases t with
  | control a b => exact ⟨_, rfl⟩
  | data a b => exact ⟨_, rfl⟩
  | units g a b =>
    obtain ⟨y, hy, hgoverns⟩ := ht
    obtain ⟨w, hw, _⟩ := ((hr.orderly.shaped g y hy).governs a b).1 hgoverns
    obtain ⟨u, hu, _⟩ := hgoverns
    have hdraft := (hr.whole g y hy).draft
    obtain ⟨last, hlast⟩ := Option.ne_none_iff_exists'.1
      (mt List.getLast?_eq_none_iff.1 (hdraft.filled a u hu))
    obtain ⟨first, hfirst⟩ := Option.ne_none_iff_exists'.1
      (mt List.head?_eq_none_iff.1 (hdraft.filled b w hw))
    have hlast : u.last? = some last := hlast
    have hfirst : w.first? = some first := hfirst
    exact ⟨(last, first, .control), by simp [tied?, hy, hu, hw, hlast, hfirst]⟩

/-! ## The exported graph -/

/-- Where each of its elements has an outcome, a list has one outcome for each. -/
theorem forall₂_filterMap {α β : Type} {f : α → Option β} {l : List α}
    (h : ∀ a ∈ l, ∃ b, f a = some b) :
    List.Forall₂ (fun a b => f a = some b) l (l.filterMap f) := by
  induction l with
  | nil => exact .nil
  | cons a l ih =>
    obtain ⟨b, hb⟩ := h a List.mem_cons_self
    rw [List.filterMap_cons_some hb]
    exact .cons hb (ih fun c hc => h c (List.mem_cons_of_mem _ hc))

theorem ordered_liveNodes (r : Registry) :
    r.liveNodes.Pairwise fun p q => p.1.index < q.1.index := by
  rw [liveNodes, List.pairwise_map, Arena.live, List.pairwise_filterMap]
  refine List.Pairwise.imp (fun {i j} hlt p hp q hq => ?_) List.pairwise_lt_range
  obtain ⟨_, _, rfl⟩ := Option.map_eq_some_iff.1 hp
  obtain ⟨_, _, rfl⟩ := Option.map_eq_some_iff.1 hq
  exact hlt

theorem function_eq_some_iff {y : Node} (hy : r.node? n = some y) (f : FunctionId) :
    (y.graph?.bind r.graph?).map (·.function) = some f ↔ ∃ g, r.OwnedBy n g ∧ r.Hosts g f := by
  constructor
  · intro h
    obtain ⟨z, hz, hf⟩ := Option.map_eq_some_iff.1 h
    obtain ⟨g, hg, hz⟩ := Option.bind_eq_some_iff.1 hz
    exact ⟨g, ⟨y, hy, hg⟩, z, hz, hf⟩
  · rintro ⟨g, ⟨y', hy', hg⟩, z, hz, hf⟩
    rw [hy] at hy'
    cases hy'
    rw [hg, Option.bind_some, hz, Option.map_some, hf]

/-- A node that belongs to no live graph is shared. -/
theorem Complete.function_eq_none_iff (hr : r.Complete m) {y : Node} (hy : r.node? n = some y) :
    (y.graph?.bind r.graph?).map (·.function) = none ↔ n ∈ r.pool.values := by
  have ho := hr.orderly
  rw [mem_pool_values, Option.map_eq_none_iff]
  constructor
  · intro h
    -- an owner would be live
    have hnone : y.graph? = none := by
      refine Option.eq_none_iff_forall_ne_some.2 fun g hg => ?_
      obtain ⟨z, hz⟩ := ho.live_of_ownedBy ⟨y, hy, hg⟩
      rw [hg, Option.bind_some, hz] at h
      cases h
    obtain ⟨p, hp⟩ := ho.housed.full n y hy
    obtain ⟨y', hy', hfits⟩ := ho.housed.live p n hp
    rw [hy] at hy'
    cases hy'
    have hkeeper := hfits.graph?_eq
    rw [hnone] at hkeeper
    cases p with
    | pool v => exact ⟨v, hp⟩
    | index g key => cases hkeeper
    | formal g s b => cases hkeeper
    | actual c s b =>
      -- a call with parameters belongs to a graph
      obtain ⟨k, args, z, _, _, hz, hzg, _⟩ := ho.equipped c s b n hp
      rw [keeper?, hz, Option.bind_some, hzg] at hkeeper
      cases hkeeper
  · rintro ⟨v, hv⟩
    obtain ⟨y', hy', hfits⟩ := ho.housed.live _ n hv
    rw [hy] at hy'
    cases hy'
    have hkeeper : y.graph? = none := hfits.graph?_eq
    rw [hkeeper]
    rfl

end Registry

namespace Export

variable {x : Export} {n : NodeId} {i : Nat}

/-- A node is found where it stands, if the ids differ. -/
theorem find?_eq_some_iff (hx : x.nodes.Pairwise fun z w => z.id.index < w.id.index) :
    x.find? n = some i ↔ ∃ z, x.nodes[i]? = some z ∧ z.id = n := by
  rw [find?, List.findIdx?_eq_some_iff_getElem]
  constructor
  · rintro ⟨hi, hn, _⟩
    exact ⟨x.nodes[i], List.getElem?_eq_getElem hi, of_decide_eq_true hn⟩
  · rintro ⟨z, hz, rfl⟩
    obtain ⟨hi, rfl⟩ := List.getElem?_eq_some_iff.1 hz
    refine ⟨hi, decide_eq_true rfl, fun j hj hsame => ?_⟩
    -- what stands before has a smaller id
    have hlt := List.pairwise_iff_getElem.1 hx j i (hj.trans hi) hi hj
    rw [of_decide_eq_true hsame] at hlt
    exact Nat.lt_irrefl _ hlt

theorem find?_eq_none_iff : x.find? n = none ↔ ∀ z ∈ x.nodes, z.id ≠ n := by
  simp [find?, List.findIdx?_eq_none_iff]

end Export

namespace Registry

variable {m : Module} {r : Registry} {x : Export}

/-- What ended well for a list did so for each of its elements. -/
theorem forall₂_of_mapM {α β ε : Type} {work : α → Except ε β} {l : List α} {l' : List β}
    (h : l.mapM work = .ok l') : List.Forall₂ (fun a b => work a = .ok b) l l' := by
  induction l generalizing l' with
  | nil =>
    cases h
    exact .nil
  | cons a l ih =>
    rw [List.mapM_cons, bind_eq_ok] at h
    obtain ⟨b, hb, h⟩ := h
    obtain ⟨bs, hbs, h⟩ := bind_eq_ok.1 h
    cases h
    exact .cons hb (ih hbs)

theorem exists_mem_left_of_forall₂ {α β : Type} {R : α → β → Prop} {l : List α} {l' : List β}
    (h : List.Forall₂ R l l') {b : β} (hb : b ∈ l') : ∃ a ∈ l, R a b := by
  obtain ⟨i, hi, rfl⟩ := List.getElem_of_mem hb
  have hi' : i < l.length := h.length_eq ▸ hi
  exact ⟨l[i], List.getElem_mem hi', (List.forall₂_iff_get.1 h).2 i hi' hi⟩

/-- An exported node stands for a live one. -/
structure IsImage (r : Registry) (p : NodeId × Node) (z : ExportNode) : Prop where
  id : z.id = p.1
  key : z.key = p.2.key
  function : z.function? = (p.2.graph?.bind r.graph?).map (·.function)

theorem isImage_of_exportNode {p : NodeId × Node} {z : ExportNode}
    (h : r.exportNode m p.1 p.2 = .ok z) : r.IsImage p z := by
  obtain ⟨label, _, hz⟩ := bind_eq_ok.1 h
  cases hz
  exact ⟨rfl, rfl, rfl⟩

/-- Nodes are exported in the order in which they are listed. -/
theorem nodes_of_toExport (h : r.toExport m = .ok x) :
    List.Forall₂ r.IsImage r.liveNodes x.nodes := by
  obtain ⟨nodes, hnodes, hx⟩ := bind_eq_ok.1 h
  cases hx
  exact (forall₂_of_mapM hnodes).imp fun _ _ => isImage_of_exportNode

/-- There is an exported edge for each edge whose ends are found. -/
theorem edges_of_toExport (h : r.toExport m = .ok x) :
    x.edges = r.edgeEnds.filterMap fun p => do
      return ⟨← x.find? p.1, ← x.find? p.2.1, p.2.2⟩ := by
  obtain ⟨nodes, hnodes, hx⟩ := bind_eq_ok.1 h
  cases hx
  rfl

/-- **Exports.** The export of a complete registry shows it. -/
theorem Complete.shows (hr : r.Complete m) (hidle : r.Idle) (h : r.toExport m = .ok x) :
    x.Shows r := by
  have hnodes := nodes_of_toExport h
  -- the nodes are exported one by one, in the order of their names
  have hids : r.liveNodes.map Prod.fst = x.nodes.map (·.id) := by
    have hsame := hnodes.imp fun p z hz => hz.id.symm
    exact List.forall₂_eq_eq_eq ▸ List.forall₂_map_left_iff.2 (List.forall₂_map_right_iff.2 hsame)
  have hlive : ∀ n, (∃ z ∈ x.nodes, z.id = n) ↔ ∃ y, r.node? n = some y := by
    intro n
    rw [← List.mem_map, ← hids, List.mem_map]
    simp [mem_liveNodes]
  have hordered : x.nodes.Pairwise fun z w => z.id.index < w.id.index := by
    have hnames : (r.liveNodes.map Prod.fst).Pairwise fun n k => n.index < k.index :=
      List.pairwise_map.2 r.ordered_liveNodes
    rwa [hids, List.pairwise_map] at hnames
  have himage : ∀ z ∈ x.nodes, ∃ y, r.node? z.id = some y ∧ r.IsImage (z.id, y) z := by
    intro z hz
    obtain ⟨⟨n, y⟩, hy, himage⟩ := exists_mem_left_of_forall₂ hnodes hz
    rw [mem_liveNodes] at hy
    cases himage.id
    exact ⟨y, hy, himage⟩
  -- so each live node has a position, which is the one that looking it up finds
  have hfound : ∀ n, (∃ y, r.node? n = some y) → ∃ i, x.find? n = some i := by
    intro n hn
    obtain ⟨z, hz, hid⟩ := (hlive n).2 hn
    obtain ⟨i, hi⟩ := List.getElem?_of_mem hz
    exact ⟨i, (Export.find?_eq_some_iff hordered).2 ⟨z, hi, hid⟩⟩
  constructor
  case ordered => exact hordered
  case live => exact hlive
  case keyed =>
    intro z hz
    obtain ⟨y, hy, himage⟩ := himage z hz
    exact ⟨y, hy, himage.key.symm⟩
  case owned =>
    intro z hz f
    obtain ⟨y, hy, himage⟩ := himage z hz
    rw [himage.function, function_eq_some_iff hy]
  case shared =>
    intro z hz
    obtain ⟨y, hy, himage⟩ := himage z hz
    rw [himage.function, hr.function_eq_none_iff hy]
  case found => exact fun n i => Export.find?_eq_some_iff hordered
  case lost =>
    intro n
    have hiff := hlive n
    rw [Export.find?_eq_none_iff, ← not_iff_not, ← Ne, Option.ne_none_iff_exists', ← hlive n]
    simp
  case edges =>
    refine ⟨r.ties, r.nodup_ties, fun t => mem_ties hidle, ?_⟩
    rw [edges_of_toExport h, edgeEnds_eq, List.filterMap_filterMap]
    refine (forall₂_filterMap fun t ht => ?_).imp fun t e he => ?_
    · -- the ends of an edge are live, so they have positions
      obtain ⟨⟨a, b, kind⟩, hp⟩ := hr.exists_tied ((mem_ties hidle).1 ht)
      have hends := hr.orderly.live_of_edgeEnds
        (edgeEnds_eq r ▸ List.mem_filterMap.2 ⟨t, ht, hp⟩)
      obtain ⟨i, hi⟩ := hfound a hends.1
      obtain ⟨j, hj⟩ := hfound b hends.2
      exact ⟨⟨i, j, kind⟩, by simp [hp, hi, hj]⟩
    · obtain ⟨⟨a, b, kind⟩, hp, he⟩ := Option.bind_eq_some_iff.1 he
      obtain ⟨i, hi, he⟩ := Option.bind_eq_some_iff.1 he
      obtain ⟨j, hj, he⟩ := Option.bind_eq_some_iff.1 he
      cases he
      exact ⟨a, b, hp, hi, hj⟩

end Registry

namespace Session

variable {m : Module} {s : Session}

theorem Reachable.idle (hs : Reachable m s) : s.registry.Idle := by
  intro g y hy b hb
  obtain ⟨e, rfl, hd⟩ := hs.drawn hy
  obtain ⟨x, _, hgoverned⟩ := hd.governed hs.complete hy
  obtain ⟨u, hu, hmem⟩ := hb
  obtain ⟨w, hw, hnone⟩ := hgoverned.exit
  rw [hu] at hw
  cases hw
  exact (hnone b).1 hmem

/-- **Exports.** In a session on a closed module the registry is exported after every run, whatever
was asked for and given. The nodes of the export are the live nodes in the order of their ids, each
with its key and with the function of the live graph that it belongs to, which only the shared nodes
do not have. There is one edge for each reason to have one: that a node controls another, or is read
by it, or that in a live graph one unit controls another; and the ends of each are nodes of the
export. A node is found at its position if it is live, and not at all if it is not. -/
theorem Reachable.exported (hm : m.IsClosed) (hs : Reachable m s) :
    ∃ x, s.registry.toExport m = .ok x ∧ x.Shows s.registry := by
  obtain ⟨_, hwithin⟩ := hs.within hm
  obtain ⟨x, hx, _⟩ := hwithin.exists_export hm
  exact ⟨x, hx, hs.complete.shows hs.idle hx⟩

/-- The actual parameter that `main` has for the object is found in the export. -/
theorem Reachable.exported_of_ticks : ∃ o s x i,
    ((Session.start .ticks).step (.root none)).2 = .ok (o, s) ∧
      s.registry.toExport .ticks = .ok x ∧ x.find? ⟨16⟩ = some i := by
  have hlive : ((Session.start .ticks).step (.root none)).2.toOption.any (fun p =>
      (p.2.registry.node? ⟨16⟩).isSome) = true := by decide +kernel
  obtain ⟨⟨o, s⟩, hstep, htest⟩ := exists_ok_of_any hlive
  obtain ⟨y, hy⟩ := Option.isSome_iff_exists.1 htest
  have hclosed : Module.ticks.IsClosed := Module.dangling?_eq_none_iff.1 (by decide +kernel)
  have hs : Reachable .ticks s := .step .start hstep
  obtain ⟨x, hx, hshows⟩ := hs.exported hclosed
  obtain ⟨z, hz, hid⟩ := (hshows.live ⟨16⟩).2 ⟨y, hy⟩
  obtain ⟨i, hi⟩ := List.getElem?_of_mem hz
  exact ⟨o, s, x, i, hstep, hx, (hshows.found ⟨16⟩ i).2 ⟨z, hi, hid⟩⟩

end Session

end Sdg
