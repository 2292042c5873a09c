import Sdg.Proofs.Maintained
import Sdg.Proofs.Registry.Ages
import Sdg.Proofs.Registry.Shape

/-!
# Layouts

The layout of a graph is what the build of the graph itself makes of it: its units with their nodes
and edges, its entry and exit, its index and its calls. Parameters, links and references come and go
without it, and so do whole builds of other graphs: a registry that is left `Calm` has the graphs
that it had, in the same layout.

Main results:

* `Graph.layout_modifyUnit` — what calls a unit has recorded is no part of the layout;
* `Registry.Calm.trans`, `Registry.Calm.reviseNode`, `Registry.Calm.reviseGraph` — what is calm.
-/

namespace Sdg

/-! ## The layout of a graph -/

/-- A set has more than one element if two of its elements are distinct. -/
theorem OrderedSet.one_lt_size_iff {α : Type} {s : OrderedSet α} :
    1 < s.size ↔ ∃ a ∈ s, ∃ b ∈ s, a ≠ b := by
  obtain ⟨l, hl⟩ := s
  simp only [size, mem_def]
  constructor
  · intro hlt
    -- the first two elements are distinct
    cases l with
    | nil => exact absurd hlt (Nat.not_lt_zero 1)
    | cons a l =>
      cases l with
      | nil => exact absurd hlt (Nat.lt_irrefl 1)
      | cons b l =>
        refine ⟨a, List.mem_cons_self, b, List.mem_cons_of_mem _ List.mem_cons_self, ?_⟩
        rintro rfl
        exact (List.nodup_cons.1 hl).1 List.mem_cons_self
  · intro hp
    obtain ⟨a, ha, b, hb, hne⟩ := hp
    cases l with
    | nil => cases ha
    | cons c l =>
      cases l with
      | nil =>
        exact absurd ((List.mem_singleton.1 ha).trans (List.mem_singleton.1 hb).symm) hne
      | cons _ _ =>
        simp only [List.length_cons]
        omega

namespace OrderedMap

variable {κ β γ : Type}

/-- The same keys with other values. -/
def mapValues (m : OrderedMap κ β) (f : β → γ) : OrderedMap κ γ :=
  ⟨m.entries.map fun e => (e.1, f e.2), by
    rw [List.map_map]
    exact m.nodup_keys⟩

@[simp] theorem keys_mapValues (m : OrderedMap κ β) (f : β → γ) :
    (m.mapValues f).keys = m.keys := by
  rw [keys, mapValues, List.map_map]
  rfl

@[simp] theorem get?_mapValues [DecidableEq κ] (m : OrderedMap κ β) (f : β → γ) (k : κ) :
    (m.mapValues f).get? k = (m.get? k).map f := by
  obtain ⟨l, hl⟩ := m
  unfold mapValues get?
  simp only
  clear hl
  induction l with
  | nil => rfl
  | cons e l ih =>
    rw [List.map_cons, List.lookup_cons, List.lookup_cons, ih]
    cases k == e.1 <;> rfl

/-- A new key comes last. -/
theorem keys_insert_of_not_mem [DecidableEq κ] {m : OrderedMap κ β} {k : κ} (h : k ∉ m.keys)
    (b : β) : (m.insert k b).keys = m.keys ++ [k] := by
  have hins : m.insert k b = ⟨m.entries ++ [(k, b)], _⟩ := dif_neg h
  rw [hins, keys, List.map_append]
  rfl

/-- A change that does not show in the new values. -/
theorem mapValues_modify [DecidableEq κ] {f : β → γ} {u : β → β} (hu : ∀ b, f (u b) = f b)
    (m : OrderedMap κ β) (k : κ) : (m.modify k u).mapValues f = m.mapValues f := by
  ext1
  simp only [mapValues, modify, List.map_map]
  apply List.map_congr_left
  intro e _
  by_cases he : e.1 = k <;> simp [he, hu]

end OrderedMap

/-- A unit without the calls that were recorded in it. -/
def BlockUnit.bare (u : BlockUnit) : BlockUnit := { u with callSites := .empty }

namespace Graph

variable {y z : Graph} {k : BlockKey}

/-- What is left of a graph without its phase, its parameters, its links and its references. -/
def layout (y : Graph) : Graph := { Graph.fresh y.function with
  entryNode? := y.entryNode?
  exitNode? := y.exitNode?
  entryBlock? := y.entryBlock?
  units := y.units.mapValues BlockUnit.bare
  exitUnit? := y.exitUnit?.map BlockUnit.bare
  index := y.index
  callNodes := y.callNodes }

theorem unit?_layout (y : Graph) (k : BlockKey) : y.layout.unit? k = (y.unit? k).map .bare := by
  cases k <;> simp [layout, unit?]

/-- What calls a unit has recorded is no part of the layout. -/
theorem layout_modifyUnit {f : BlockUnit → BlockUnit} (hf : ∀ u, (f u).bare = u.bare) (y : Graph)
    (k : BlockKey) : (y.modifyUnit k f).layout = y.layout := by
  cases k with
  | block b => simp [layout, modifyUnit, OrderedMap.mapValues_modify hf]
  | exit =>
    simp only [layout, modifyUnit, Option.map_map]
    congr 1
    cases y.exitUnit? <;> simp [hf]

/-- What a layout shows is the same in graphs of the same layout. -/
theorem eq_of_layout {α : Type} (p : Graph → α) (hp : ∀ y, p y.layout = p y)
    (h : z.layout = y.layout) : p z = p y := by
  rw [← hp z, h, hp]

/-- A unit looks the same in graphs of the same layout. -/
theorem exists_unit_of_layout (h : z.layout = y.layout) {w : BlockUnit} (hw : z.unit? k = some w) :
    ∃ u, y.unit? k = some u ∧ w.bare = u.bare := by
  have hunit := congrArg (fun y => Graph.unit? y k) h
  simp only [unit?_layout, hw, Option.map_some] at hunit
  obtain ⟨u, hu, he⟩ := Option.map_eq_some_iff.1 hunit.symm
  exact ⟨u, hu, he.symm⟩

/-- What is said of a unit without the calls that were recorded in it is the same in graphs of the
same layout. -/
theorem exists_unit_eq_of_layout {α : Type} (p : BlockUnit → α) (hp : ∀ u, p u.bare = p u)
    (h : z.layout = y.layout) {w : BlockUnit} (hw : z.unit? k = some w) :
    ∃ u, y.unit? k = some u ∧ p w = p u := by
  obtain ⟨u, hu, he⟩ := exists_unit_of_layout h hw
  exact ⟨u, hu, by rw [← hp w, he, hp]⟩

theorem exists_mem_of_layout {β : Type} (edges : BlockUnit → OrderedSet β)
    (hp : ∀ u, edges u.bare = edges u) (h : z.layout = y.layout) {e : β} :
    (∃ w, z.unit? k = some w ∧ e ∈ edges w) ↔ ∃ u, y.unit? k = some u ∧ e ∈ edges u := by
  constructor
  · rintro ⟨w, hw, he⟩
    obtain ⟨u, hu, heq⟩ := exists_unit_eq_of_layout edges hp h hw
    exact ⟨u, hu, heq ▸ he⟩
  · rintro ⟨u, hu, he⟩
    obtain ⟨w, hw, heq⟩ := exists_unit_eq_of_layout edges hp h.symm hu
    exact ⟨w, hw, heq ▸ he⟩

end Graph

/-! ## What leaves all layouts as they are -/

namespace Registry

variable {r s t : Registry} {g : GraphId} {n : NodeId} {x : Node} {y z : Graph}

/-- No graph is new or in another layout. -/
structure Calm (r s : Registry) : Prop where
  ages : r.Ages s
  graph : ∀ g z, s.graph? g = some z → ∃ y, r.graph? g = some y ∧ z.layout = y.layout
  pool : s.pool = r.pool

theorem Calm.refl (r : Registry) : r.Calm r := ⟨.refl, fun _ z hz => ⟨z, hz, rfl⟩, rfl⟩

theorem Calm.trans (h : r.Calm s) (h' : s.Calm t) : r.Calm t where
  ages := h.ages.trans h'.ages
  graph g z hz := by
    obtain ⟨y, hy, he⟩ := h'.graph g z hz
    obtain ⟨x, hx, he'⟩ := h.graph g y hy
    exact ⟨x, hx, he.trans he'⟩
  pool := h'.pool.trans h.pool

theorem Calm.pushNode (r : Registry) (x : Node) : r.Calm (r.pushNode x) :=
  ⟨.pushNode x, fun _ z hz => ⟨z, hz, rfl⟩, rfl⟩

theorem Calm.reviseNode {f : Node → Node} (hf : ∀ x : Node, x.Same (f x)) :
    r.Calm (r.reviseNode n f) :=
  ⟨.reviseNode hf, fun _ z hz => ⟨z, by simpa using hz, rfl⟩, by simp⟩

theorem Calm.reviseGraph {f : Graph → Graph} (hf : ∀ y, (f y).layout = y.layout) :
    r.Calm (r.reviseGraph g f) := by
  refine ⟨Ages.reviseGraph fun y => Graph.eq_of_layout Graph.function (fun _ => rfl) (hf y),
    fun h z hz => ?_, by simp⟩
  rw [graph?_reviseGraph] at hz
  split at hz
  · obtain ⟨y, hy, rfl⟩ := Option.map_eq_some_iff.1 hz
    exact ⟨y, hy, hf y⟩
  · exact ⟨z, hz, rfl⟩

/-- The calls that are gathered are no part of a layout. -/
theorem Calm.gather (r : Registry) (c : OrderedSet NodeId) : r.Calm { r with gathered := c } :=
  ⟨.of_views rfl rfl, fun _ z hz => ⟨z, hz, rfl⟩, rfl⟩

end Registry

end Sdg
