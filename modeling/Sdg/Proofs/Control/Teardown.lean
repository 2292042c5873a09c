import Sdg.Proofs.Control.Steps
import Sdg.Proofs.Registry.Inventory
import Sdg.Proofs.Teardown.Survival

/-!
# Control edges after a teardown

Both ends of a control edge go together with the parameter, the link or the body that asks for it,
or one of them goes with its graph and takes the edge with it. So what is left has the edges that it
has to have, and no others.

Main result:

* `Wired.remains` — what a teardown leaves has the control edges that it has to have.
-/

namespace Sdg

open scoped Classical

namespace Registry

variable {m : Module} {phiControl : Bool} {r t : Registry} {D : Set GraphId} {a b n : NodeId}
  {g : GraphId} {y : Graph} {k : BlockKey} {u : BlockUnit} {i : Slot} {q : ParameterPair}

/-! ## Owners -/

/-- The nodes in the index of a graph belong to it. -/
theorem Orderly.ownedBy_of_holds (hr : r.Orderly m) (hy : r.graph? g = some y) (hn : y.Holds n) :
    r.OwnedBy n g :=
  hr.housed.ownedBy_of_index hy (OrderedMap.mem_values.2 hn)

/-- So do the nodes in its units. -/
theorem Orderly.ownedBy_of_unit (hr : r.Orderly m) (hy : r.graph? g = some y)
    (hu : y.unit? k = some u) (hn : n ∈ u.nodes) : r.OwnedBy n g :=
  hr.ownedBy_of_holds hy ((hr.shaped g y hy).nodes k u hu n hn)

theorem Orderly.ownedBy_of_entry (hr : r.Orderly m) (hy : r.graph? g = some y)
    (hn : y.entryNode? = some n) : r.OwnedBy n g :=
  hr.ownedBy_of_holds hy ((hr.shaped g y hy).entry n hn)

theorem Orderly.ownedBy_of_exit (hr : r.Orderly m) (hy : r.graph? g = some y)
    (hn : y.exitNode? = some n) : r.OwnedBy n g :=
  hr.ownedBy_of_holds hy ((hr.shaped g y hy).exit n hn)

/-- So do its formal parameters. -/
theorem Orderly.ownedBy_of_formal (hr : r.Orderly m) (hy : r.graph? g = some y)
    (hq : y.formals.at? i = some q) (isOutput : Bool) : r.OwnedBy (q.side isOutput) g := by
  refine hr.housed.ownedBy_of_formal hy ((mem_formals_nodes hy).2 ⟨i, isOutput, ?_⟩)
  rw [occupant, hy, Option.bind_some, hq]
  rfl

/-- Both ends of an edge that a body asks for belong to its graph. -/
theorem Arranged.ownedBy (hr : r.Orderly m)
    (h : r.Arranged m phiControl g a b) : r.OwnedBy a g ∧ r.OwnedBy b g := by
  cases h with
  | first hy hen _ _ hu hb =>
    exact ⟨hr.ownedBy_of_entry hy hen, hr.ownedBy_of_unit hy hu (List.mem_of_head? hb)⟩
  | phi _ hy hu hb hinto =>
    obtain ⟨_, _, _, _, w, _, _, _, _, hw, ha⟩ := hinto
    exact ⟨hr.ownedBy_of_unit hy hw (List.mem_of_getLast? ha), hr.ownedBy_of_unit hy hu hb⟩

/-! ## What is left -/

namespace Remains

theorem controls_iff (hrem : r.Remains D t) :
    t.Controls a b ↔ a ∉ r.nodesOf D ∧ b ∉ r.nodesOf D ∧ r.Controls a b :=
  hrem.edge_iff fun _ => rfl

/-- A graph that is left keeps its nodes in their places. -/
theorem sameNodes (y : Graph) (N : Set NodeId) (count : Nat) : y.SameNodes (y.without N count) :=
  .of_units rfl rfl rfl rfl rfl rfl rfl

/-- A body that is left asks for the edges that it asked for before. -/
theorem arranged_iff (hr : r.Orderly m) (hrem : r.Remains D t) :
    t.Arranged m phiControl g a b ↔ g ∉ D ∧ r.Arranged m phiControl g a b := by
  constructor
  · intro h
    obtain ⟨z, hz⟩ := h.exists_graph
    obtain ⟨hg, y, hy, rfl⟩ := hrem.graph?_iff.1 hz
    refine ⟨hg, h.transfer hz hy (sameNodes y _ _).symm fun k u n x _ _ hx => ?_⟩
    obtain ⟨_, x', hx', rfl⟩ := hrem.node?_iff.1 hx
    exact ⟨x', hx', rfl⟩
  · intro h
    obtain ⟨hg, h⟩ := h
    obtain ⟨y, hy⟩ := h.exists_graph
    refine h.transfer hy (hrem.graph?_iff.2 ⟨hg, y, hy, rfl⟩) (sameNodes y _ _) ?_
    intro k u n x hu hn hx
    have hleft := not_mem_nodesOf hr (hr.ownedBy_of_unit hy hu hn) hg
    exact ⟨_, hrem.node?_iff.2 ⟨hleft, x, hx, rfl⟩, rfl⟩

end Remains

/-- **Teardowns.** What a teardown leaves has the control edges that it has to have. -/
theorem Wired.remains (hr : r.Orderly m) (hw : r.Wired m phiControl ∅ ∅) (hrem : r.Remains D t) :
    t.Wired m phiControl ∅ ∅ := by
  -- what a graph has that is left is left as well
  have hleft : ∀ {n : NodeId} {g : GraphId}, r.OwnedBy n g → g ∉ D → n ∉ r.nodesOf D :=
    fun ho hg => Remains.not_mem_nodesOf hr ho hg
  constructor
  case within => exact subset_rfl
  case live => exact fun g hg => absurd hg (Set.notMem_empty g)
  case seated =>
    intro g z hz
    obtain ⟨hg, y, hy, rfl⟩ := hrem.graph?_iff.1 hz
    have hs := hw.seated g y hy
    have hsits : ∀ {n : NodeId} {block? : Option BlockKey}, r.OwnedBy n g → r.Sits n block? →
        t.Sits n block? := by
      intro n block? ho hn
      obtain ⟨x, hx, hb⟩ := hn
      exact ⟨_, hrem.node?_iff.2 ⟨hleft ho hg, x, hx, rfl⟩, hb⟩
    exact ⟨fun k u hu n hn => hsits (hr.ownedBy_of_unit hy hu hn) (hs.nodes k u hu n hn), hs.opened,
      fun n hn => hsits (hr.ownedBy_of_entry hy hn) (hs.entry n hn),
      fun n hn => hsits (hr.ownedBy_of_exit hy hn) (hs.exit n hn), hs.start⟩
  case formals =>
    intro g z n i q b hz hn hq
    obtain ⟨hg, y, hy, rfl⟩ := hrem.graph?_iff.1 hz
    exact hrem.controls_iff.2 ⟨hleft (hr.ownedBy_of_entry hy hn) hg,
      hleft (hr.ownedBy_of_formal hy hq b) hg, hw.formals g y n i q b hy hn hq⟩
  case actuals =>
    intro c x' i q b hx' hq
    obtain ⟨hc, x, hx, rfl⟩ := hrem.node?_iff.1 hx'
    have hocc : r.occupant (.actual c i b) = some (q.side b) := by
      rw [occupant, hx, Option.bind_some, show x.actuals.at? i = some q from hq]
      rfl
    exact hrem.controls_iff.2 ⟨hc, fun hn => hc ((Remains.actual_mem_nodesOf_iff hr hocc).1 hn),
      hw.actuals c x i q b hx hq⟩
  case calls =>
    intro c g hcalls
    obtain ⟨hc, hg, hcalls⟩ := hrem.calls_iff.1 hcalls
    obtain ⟨y, hy, hcontrols⟩ := hw.calls c g hcalls
    refine ⟨_, hrem.graph?_iff.2 ⟨hg, y, hy, rfl⟩, fun n hn => ?_⟩
    exact hrem.controls_iff.2 ⟨hc, hleft (hr.ownedBy_of_entry hy hn) hg, hcontrols n hn⟩
  case arranged =>
    intro g _ a b hab
    obtain ⟨hg, hab⟩ := (Remains.arranged_iff hr hrem).1 hab
    obtain ⟨ha, hb⟩ := hab.ownedBy hr
    exact hrem.controls_iff.2 ⟨hleft ha hg, hleft hb hg, hw.arranged g (Set.notMem_empty g) a b hab⟩
  case sound =>
    intro a b hab
    obtain ⟨ha, hb, hab⟩ := hrem.controls_iff.1 hab
    -- the graph that an edge is about has one of the ends, so it is left
    have hleft' : ∀ {n : NodeId} {g : GraphId}, r.OwnedBy n g → n ∉ r.nodesOf D → g ∉ D :=
      fun ho hn hg => hn (Remains.mem_nodesOf hr ho hg)
    rcases hw.sound a b hab with hatt | ⟨g, _, harr⟩
    · left
      cases hatt with
      | formal isOutput hy hen hq he =>
        have hg := hleft' (hr.ownedBy_of_entry hy hen) ha
        exact .formal isOutput (hrem.graph?_iff.2 ⟨hg, _, hy, rfl⟩) hen hq he
      | actual isOutput hx hq he =>
        exact .actual isOutput (hrem.node?_iff.2 ⟨ha, _, hx, rfl⟩) hq he
      | call hc hy hen =>
        have hg := hleft' (hr.ownedBy_of_entry hy hen) hb
        exact .call (hrem.calls_iff.2 ⟨ha, hg, hc⟩) (hrem.graph?_iff.2 ⟨hg, _, hy, rfl⟩) hen
      | ret hy hu hn hx hop hex =>
        have hg := hleft' (hr.ownedBy_of_exit hy hex) hb
        exact .ret (hrem.graph?_iff.2 ⟨hg, _, hy, rfl⟩) hu hn
          (hrem.node?_iff.2 ⟨ha, _, hx, rfl⟩) hop hex
    · have hg := hleft' (harr.ownedBy hr).1 ha
      exact Or.inr ⟨g, Set.notMem_empty g, (Remains.arranged_iff hr hrem).2 ⟨hg, harr⟩⟩

end Registry

end Sdg
