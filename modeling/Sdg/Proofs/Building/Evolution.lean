import Sdg.Proofs.Formals.Propagation

/-!
# Evolution

What the parts of a build do to the graphs that were there before them. Builds nest: while the body
of one function is visited, whole graphs of others come into being, call back and hand their
parameters on. `Evolves` is what a part of a build leaves to the rest of it, however much was built
meanwhile. It also tells who holds the graphs, old and new, and for which functions graphs were
made.

Main results:

* `Evolves.trans` — evolutions follow one another;
* `Evolves.of_quiet`, `Evolves.of_settles` — entries and spread parameters are evolutions.
-/

namespace Sdg

open Registry Relation

namespace Registry

/-- The call `c` is linked to the graph of the function `f`. -/
def LinkedTo (r : Registry) (c : NodeId) (f : FunctionId) : Prop := ∃ h, r.Calls c h ∧ r.Hosts h f

/-- The node `n` stands for what the key tells. -/
def Keyed (r : Registry) (n : NodeId) (key : NodeKey) : Prop :=
  ∃ x, r.node? n = some x ∧ x.key = key

/-- The call `v` has the node `c` in the graph `g`, and that is linked to the graphs of all that the
call may run. It is told what is called, and the node is gathered if it has to be. -/
structure Answered (e : Setup) (r : Registry) (g : GraphId) (v : ValueId) (c : NodeId) : Prop where
  isCall : ∃ args, r.IsCall e.program c g args
  keyed : r.Keyed c (.value v)
  linked : ∀ f, e.MayRun v f → r.LinkedTo c f
  tells : e.program.Tells v
  gathered : e.Gathers v → c ∈ r.gathered

/-- The call `v` has such a node in the graph `g`. -/
def Answers (e : Setup) (r : Registry) (g : GraphId) (v : ValueId) : Prop :=
  ∃ c, r.Answered e g v c

/-- The node `c` is that of a call that is gathered. -/
def Gathers (e : Setup) (r : Registry) (c : NodeId) : Prop :=
  ∃ g args v, r.IsCall e.program c g args ∧ r.Keyed c (.value v) ∧ e.Gathers v

/-- Of the gathered calls none is dropped, and only calls that have to be gathered are added. -/
structure Collects (e : Setup) (r s : Registry) : Prop where
  kept : ∀ c ∈ r.gathered, c ∈ s.gathered
  added : ∀ c ∈ s.gathered, c ∈ r.gathered ∨ s.Gathers e c

/-- The graphs of `s` are those of `r`, and all that were numbered since. -/
structure Numbers (r s : Registry) : Prop where
  next : r.graphs.next ≤ s.graphs.next
  live : ∀ g, (∃ y, s.graph? g = some y) ↔
    (∃ y, r.graph? g = some y) ∨ r.graphs.next ≤ g.index ∧ g.index < s.graphs.next

variable {e : Setup} {r s t : Registry} {g : GraphId}

theorem Keyed.grows {n : NodeId} {key : NodeKey} (hg : r.Grows s) (h : r.Keyed n key) :
    s.Keyed n key := by
  obtain ⟨x, hx, hk⟩ := h
  obtain ⟨x', hx', hxx⟩ := hg.node n x hx
  exact ⟨x', hx', hxx.key.trans hk⟩

/-- A graph that is revised keeps its function. -/
theorem hosts_reviseGraph {f : Graph → Graph} {k : FunctionId} {i : GraphId}
    (hf : ∀ y, (f y).function = y.function) : (r.reviseGraph g f).Hosts i k ↔ r.Hosts i k := by
  unfold Hosts
  rw [graph?_reviseGraph]
  split <;> simp [hf]

theorem LinkedTo.grows {c : NodeId} {f : FunctionId} (hg : r.Grows s) (h : r.LinkedTo c f) :
    s.LinkedTo c f := by
  obtain ⟨k, hc, hf⟩ := h
  exact ⟨k, hc.grows hg, hf.grows hg⟩

theorem Gathers.grows {c : NodeId} (hg : r.Grows s) (h : r.Gathers e c) : s.Gathers e c := by
  obtain ⟨g, args, v, hc, hk, hv⟩ := h
  exact ⟨g, args, v, hc.grows hg, hk.grows hg, hv⟩

theorem Collects.of_eq (h : s.gathered = r.gathered) : r.Collects e s :=
  ⟨fun _ hc => h ▸ hc, fun _ hc => Or.inl (h ▸ hc)⟩

theorem Collects.trans (h : r.Collects e s) (hg : s.Grows t) (k : s.Collects e t) :
    r.Collects e t where
  kept c hc := k.kept c (h.kept c hc)
  added c hc := by
    rcases k.added c hc with hs | ht
    · exact (h.added c hs).imp_right fun hs => hs.grows hg
    · exact Or.inr ht

theorem Answers.grows {v : ValueId} (hg : r.Grows s) (hk : r.Collects e s)
    (h : r.Answers e g v) : s.Answers e g v := by
  obtain ⟨c, ⟨args, hcall⟩, hkey, hlinked, htells, hgathered⟩ := h
  exact ⟨c, ⟨args, hcall.grows hg⟩, hkey.grows hg, fun f hr => (hlinked f hr).grows hg, htells,
    fun hv => hk.kept c (hgathered hv)⟩

theorem Numbers.of_eq (hn : s.nextGraph = r.nextGraph)
    (hl : ∀ g, (∃ y, s.graph? g = some y) ↔ ∃ y, r.graph? g = some y) : r.Numbers s := by
  have hnext : s.graphs.next = r.graphs.next := congrArg GraphId.index hn
  refine ⟨hnext.ge, fun g => ?_⟩
  rw [hl, hnext]
  refine ⟨Or.inl, fun h => ?_⟩
  rcases h with h | ⟨h₁, h₂⟩
  · exact h
  · omega

theorem Numbers.reviseGraph (r : Registry) (g : GraphId) (f : Graph → Graph) :
    r.Numbers (r.reviseGraph g f) := by
  refine .of_eq (nextGraph_reviseGraph r g f) fun k => ?_
  rw [graph?_reviseGraph]
  split <;> simp

theorem Numbers.pushGraph (r : Registry) (y : Graph) : r.Numbers (r.pushGraph y) := by
  have hnext : (r.pushGraph y).graphs.next = r.graphs.next + 1 := Arena.next_push _ _
  refine ⟨by omega, fun g => ?_⟩
  rw [graph?_pushGraph, hnext]
  split
  · rename_i hg
    subst hg
    exact ⟨fun _ => Or.inr ⟨Nat.le_refl _, Nat.lt_succ_self _⟩, fun _ => ⟨y, rfl⟩⟩
  · rename_i hg
    refine ⟨Or.inl, fun h => ?_⟩
    rcases h with h | ⟨h₁, h₂⟩
    · exact h
    · -- but for the new graph no number is new
      exact absurd (congrArg GraphId.mk (show g.index = r.graphs.next by omega)) hg

theorem Numbers.trans (h : r.Numbers s) (k : s.Numbers t) : r.Numbers t := by
  have h₁ := h.next
  have h₂ := k.next
  refine ⟨h₁.trans h₂, fun g => ?_⟩
  rw [k.live, h.live, or_assoc]
  refine or_congr_right ⟨fun hp => ?_, fun hp => ?_⟩ <;> omega

end Registry

/-- The graph `g`, which looks like `y`, has all the parameters and links that its function asks
for. -/
structure Covered (e : Setup) (r : Registry) (g : GraphId) (y : Graph) : Prop where
  declared : ∀ f v, e.program.function y.function = .ok f → v ∈ f.params →
    y.formals.contains v = true
  touched : ∀ v, e.program.Touches y.function v → y.formals.contains v = true
  allocated : ∀ v, e.Allocates y.function v → y.formals.contains v = true
  called : ∀ v callee args, e.program.InBody y.function v → e.program.IsCallOf v callee args →
    r.Answers e g v

theorem Covered.grows {e : Setup} {r s : Registry} {g : GraphId} {y y' : Graph}
    (h : Covered e r g y) (hg : r.Grows s) (hk : r.Collects e s) (hy : y.Grows y') :
    Covered e s g y' where
  declared f v hf hv := hy.contains (h.declared f v (hy.function ▸ hf) hv)
  touched v hv := hy.contains (h.touched v (hy.function ▸ hv))
  allocated v hv := hy.contains (h.allocated v (hy.function ▸ hv))
  called v callee args hv hcall := (h.called v callee args (hy.function ▸ hv) hcall).grows hg hk

/-- A graph that has what its function asks for is linked to the graphs of all that it runs. -/
theorem Covered.served {e : Setup} {r : Registry} {g : GraphId} {y : Graph} (h : Covered e r g y)
    (f : FunctionId) (hruns : e.Runs y.function f) : ∃ h, r.Links g h ∧ r.Hosts h f := by
  obtain ⟨v, hv, hmay⟩ := hruns
  obtain ⟨callee, args, hcall⟩ := hmay.isCallOf
  obtain ⟨c, hc⟩ := h.called v callee args hv hcall
  obtain ⟨_, hisCall⟩ := hc.isCall
  obtain ⟨k, hk, hf⟩ := hc.linked f hmay
  exact ⟨k, ⟨c, hisCall.ownedBy, hk⟩, hf⟩

/-- What a part of a build does. Links that were settled stay so, and new ones are settled. Of the
graphs that were there it keeps the phase and the number of references that no call holds; those
that are new it has finished, and it holds no reference to them. They are there because a function
of `F` was asked for, or because one is called that had a graph before. -/
structure Evolves (e : Setup) (r s : Registry) (F : Set FunctionId := ∅) : Prop where
  changes : Changes e r s
  settled : ∀ c g, r.Calls c g → r.Settled e.program c g → s.Settled e.program c g
  linked : ∀ c g, s.Calls c g → r.Calls c g ∨ s.Settled e.program c g
  old : ∀ g y, r.graph? g = some y → ∃ y', s.graph? g = some y' ∧ y'.phase = y.phase ∧
    y'.refcount + y.callers.size = y.refcount + y'.callers.size
  fresh : ∀ g y', r.graph? g = none → s.graph? g = some y' →
    y'.phase = .built ∧ Covered e s g y' ∧ y'.refcount = y'.callers.size
  rooted : ∀ g y', r.graph? g = none → s.graph? g = some y' →
    ∃ f, (f ∈ F ∨ ∃ h, r.Hosts h f) ∧ ReflTransGen e.Runs f y'.function
  numbers : r.Numbers s
  loops : ∀ g, s.variadic? g = r.variadic? g ∨ s.Loops g
  collects : r.Collects e s

variable {e : Setup} {r s t : Registry} {F : Set FunctionId}

namespace Evolves

theorem grows (h : Evolves e r s F) : r.Grows s := h.changes.grows

theorem orderly (h : Evolves e r s F) (hr : r.Orderly e.program) : s.Orderly e.program :=
  hr.changes h.changes

/-- It does not matter what else was asked for. -/
theorem mono {F' : Set FunctionId} (h : Evolves e r s F) (hF : F ⊆ F') : Evolves e r s F' := by
  refine { h with rooted := fun g y' hn hy' => ?_ }
  obtain ⟨f, hf | hf, hreach⟩ := h.rooted g y' hn hy'
  · exact ⟨f, Or.inl (hF hf), hreach⟩
  · exact ⟨f, Or.inr hf, hreach⟩

/-- A function that is called by one with a graph need not be asked for. -/
theorem of_called {f fn : FunctionId} {h : GraphId} (hs : Evolves e r s {f}) (hh : r.Hosts h fn)
    (hruns : e.Runs fn f) : Evolves e r s := by
  refine { hs with rooted := fun g y' hn hy' => ?_ }
  obtain ⟨k, rfl | hk, hreach⟩ := hs.rooted g y' hn hy'
  · exact ⟨fn, Or.inr ⟨h, hh⟩, .head hruns hreach⟩
  · exact ⟨k, Or.inr hk, hreach⟩

/-- Where all links are settled they are so after a part of a build. -/
theorem closed (h : Evolves e r s F) (hr : r.Closed e.program) : s.Closed e.program := by
  intro g c hc
  -- an old link was settled and stays so, and a new one is settled
  rcases h.linked c g hc with hc | hs
  · exact h.settled c g hc (hr g c hc)
  · exact hs

theorem refl (e : Setup) (r : Registry) : Evolves e r r where
  changes := .refl
  settled _ _ _ h := h
  linked _ _ h := Or.inl h
  old _ y hy := ⟨y, hy, rfl, rfl⟩
  fresh g y' hn hs := by
    rw [hn] at hs
    cases hs
  rooted g y' hn hs := by
    rw [hn] at hs
    cases hs
  numbers := .of_eq rfl fun _ => Iff.rfl
  loops _ := Or.inl rfl
  collects := .of_eq rfl

/-- Evolutions follow one another. -/
theorem trans (h : Evolves e r s F) (k : Evolves e s t F) : Evolves e r t F where
  changes := h.changes.trans k.changes
  settled c g hc hs := k.settled c g (hc.grows h.grows) (h.settled c g hc hs)
  linked c g hc := by
    -- the link is as old as `r`, or from the first part, or from the second
    rcases k.linked c g hc with hc | hs
    · rcases h.linked c g hc with hc' | hs
      · exact Or.inl hc'
      · exact Or.inr (k.settled c g hc hs)
    · exact Or.inr hs
  old g y hy := by
    obtain ⟨y', hy', hp, hc⟩ := h.old g y hy
    obtain ⟨y'', hy'', hp', hc'⟩ := k.old g y' hy'
    exact ⟨y'', hy'', hp'.trans hp, by omega⟩
  fresh g y'' hn hy'' := by
    -- the graph is from the second part, or from the first
    cases hs : s.graph? g with
    | none => exact k.fresh g y'' hs hy''
    | some y' =>
      -- what the first part finished is only added to by the second
      obtain ⟨hp, hcov, hcount⟩ := h.fresh g y' hn hs
      obtain ⟨z, hz, hp', hcount'⟩ := k.old g y' hs
      obtain ⟨z', hz', hgrows⟩ := k.grows.graph g y' hs
      rw [hy''] at hz hz'
      cases hz
      cases hz'
      exact ⟨hp'.trans hp, hcov.grows k.grows k.collects hgrows, by omega⟩
  rooted g y'' hn hy'' := by
    -- what leads to a graph of the second part was asked for, was there at first, or is new itself
    cases hs : s.graph? g with
    | some y' =>
      obtain ⟨z, hz, hgrows⟩ := k.grows.graph g y' hs
      rw [hy''] at hz
      cases hz
      rw [hgrows.function]
      exact h.rooted g y' hn hs
    | none =>
      obtain ⟨f, hf | ⟨i, z, hz, rfl⟩, hreach⟩ := k.rooted g y'' hs hy''
      · exact ⟨f, Or.inl hf, hreach⟩
      cases hi : r.graph? i with
      | some y =>
        obtain ⟨z', hz', hgrows⟩ := h.grows.graph i y hi
        rw [hz] at hz'
        cases hz'
        exact ⟨z.function, Or.inr ⟨i, y, hi, hgrows.function.symm⟩, hreach⟩
      | none =>
        obtain ⟨f, hf, hreach'⟩ := h.rooted i z hi hz
        exact ⟨f, hf, hreach'.trans hreach⟩
  numbers := h.numbers.trans k.numbers
  loops g := loops_trans k.grows (h.loops g) (k.loops g)
  collects := h.collects.trans k.grows k.collects

/-- What comes in variadically goes out after a part of a build, if it did before. -/
theorem looping (h : Evolves e r s F) (hr : ∀ g, r.Loops g) (g : GraphId) : s.Loops g := by
  rcases h.loops g with hv | hl
  · exact (hr g).grows h.grows hv
  · exact hl

end Evolves

/-! ## Which changes are evolutions -/

/-- Parameters gather no call. -/
theorem Spreads.gathered_eq (h : Spreads e r s) : s.gathered = r.gathered := by
  induction h with
  | refl => rfl
  | tail _ hs ih => exact hs.gathered_eq.trans ih

/-- Parameters make no graph. -/
theorem Spreads.nextGraph_eq (h : Spreads e r s) : s.nextGraph = r.nextGraph := by
  induction h with
  | refl => rfl
  | tail _ hs ih => exact hs.nextGraph_eq.trans ih

theorem Spreads.numbers (h : Spreads e r s) : r.Numbers s := by
  refine .of_eq h.nextGraph_eq fun g => ⟨fun hp => ?_, fun hp => ?_⟩
  · obtain ⟨y', hy'⟩ := hp
    obtain ⟨y, hy, _⟩ := h.graph hy'
    exact ⟨y, hy⟩
  · obtain ⟨y, hy⟩ := hp
    obtain ⟨y', hy', _⟩ := h.grows.graph g y hy
    exact ⟨y', hy'⟩

theorem Evolves.of_settles (hr : r.Orderly e.program) (h : Settles e r s) : Evolves e r s where
  changes := h.spreads.changes
  settled _ _ hc hs := h.settled hr hc hs
  linked c g hc := Or.inl ((h.spreads.calls_iff c g).1 hc)
  old g y hy := by
    -- of a graph nothing changes but the formals
    obtain ⟨y', hy', _⟩ := h.spreads.grows.graph g y hy
    obtain ⟨z, hz, he⟩ := h.spreads.graph hy'
    rw [hy] at hz
    cases hz
    refine ⟨y', hy', ?_, ?_⟩ <;> rw [he]
  fresh g y' hn hy' := by
    obtain ⟨y, hy, _⟩ := h.spreads.graph hy'
    rw [hn] at hy
    cases hy
  rooted g y' hn hy' := by
    obtain ⟨y, hy, _⟩ := h.spreads.graph hy'
    rw [hn] at hy
    cases hy
  numbers := h.spreads.numbers
  loops := h.loops
  collects := .of_eq h.spreads.gathered_eq

/-- A single new edge between live nodes, of control. -/
theorem Evolves.control (hr : r.Orderly e.program) {a b : NodeId} {x y : Node}
    (ha : r.node? a = some x) (hb : r.node? b = some y) : Evolves e r (r.control a b) :=
  .of_settles hr (.of_graphs (.single (.control ha hb)) fun g => by simp)

/-- A quiet change leaves the formal parameters of live graphs alone. -/
theorem Quiet.formals?_eq {m : Module} (h : Quiet m r s) {g : GraphId} {y : Graph}
    (hy : r.graph? g = some y) : s.formals? g = r.formals? g := by
  cases h with
  | shared _ => rfl
  | graph _ =>
    -- the new graph is not this one
    rw [formals?, formals?, graph?_pushGraph, if_neg (ne_nextGraph hy)]
  | node _ _ =>
    rw [formals?, formals?, graph?_giveNode]
    split
    · rw [hy]
      simp
    · rfl
  | dress hf _ => exact formals?_reviseGraph (fun z => (hf z).formals) g
  | @phase _ p _ =>
    exact formals?_reviseGraph (f := fun y => { y with phase := p }) (fun _ => rfl) g
  | unseen _ hgraph _ _ => rw [formals?, formals?, hgraph]
  | @recount _ k _ =>
    exact formals?_reviseGraph (f := fun y => { y with refcount := k y.refcount }) (fun _ => rfl) g

/-- Quiet changes unsettle nothing. -/
theorem Quiet.settled (hr : r.Orderly e.program) (h : Quiet e.program r s) {c : NodeId}
    {g : GraphId} (hc : r.Calls c g) (hs : r.Settled e.program c g) : s.Settled e.program c g := by
  obtain ⟨y, hy, _⟩ := (hr.mirrored.calls c g).1 hc
  exact hs.grows hr h.grows hc (h.formals?_eq hy)

/-- A quiet change that only makes entries: it makes no graph and changes no phase and no
references. -/
theorem Evolves.of_quiet (hr : r.Orderly e.program) (h : Quiet e.program r s)
    (hnext : s.nextGraph = r.nextGraph)
    (hold : ∀ g y, r.graph? g = some y → ∃ y', s.graph? g = some y' ∧ y'.phase = y.phase ∧
      y'.refcount = y.refcount ∧ y'.callers = y.callers)
    (hfresh : ∀ g, r.graph? g = none → s.graph? g = none) (hcollects : r.Collects e s) :
    Evolves e r s where
  changes := .single (.quiet h)
  settled _ _ hc hs := h.settled hr hc hs
  linked c g hc := Or.inl ((h.keepsLinks.calls c g).1 hc)
  old g y hy := by
    obtain ⟨y', hy', hp, hrc, hcallers⟩ := hold g y hy
    exact ⟨y', hy', hp, by rw [hrc, hcallers]⟩
  fresh g y' hn hy' := by
    rw [hfresh g hn] at hy'
    cases hy'
  rooted g y' hn hy' := by
    rw [hfresh g hn] at hy'
    cases hy'
  numbers := by
    refine .of_eq hnext fun g => ⟨fun hp => ?_, fun hp => ?_⟩
    · obtain ⟨y', hy'⟩ := hp
      cases hy : r.graph? g with
      | none =>
        rw [hfresh g hy] at hy'
        cases hy'
      | some y => exact ⟨y, rfl⟩
    · obtain ⟨y, hy⟩ := hp
      obtain ⟨y', hy', _⟩ := hold g y hy
      exact ⟨y', hy'⟩
  loops g := by
    left
    -- a graph that is not live has no variadic parameter, before and after
    cases hy : r.graph? g with
    | none => rw [variadic?, variadic?, formals?, formals?, hfresh g hy, hy]
    | some y => exact variadic?_eq (h.formals?_eq hy)
  collects := hcollects

/-- Entries in a graph that parameters and links are not about, and that keep its shape. -/
theorem Evolves.dress (hr : r.Orderly e.program) (g : GraphId) {f : Graph → Graph}
    (hf : ∀ y : Graph, y.SameCore (f y))
    (hs : ∀ y, r.graph? g = some y → y.Shaped e.program → (f y).Shaped e.program) :
    Evolves e r (r.reviseGraph g f) := by
  refine .of_quiet hr (.dress hf hs) (by simp) (fun h y hy => ?_) (fun h hn => by simp [hn])
    (.of_eq (gathered_reviseGraph r g f))
  by_cases hh : h = g
  · subst hh
    exact ⟨f y, by simp [hy], (hf y).phase, (hf y).refcount, (hf y).callers⟩
  · exact ⟨y, by simpa [hh] using hy, rfl, rfl, rfl⟩

theorem Evolves.node (hr : r.Orderly e.program) {g : GraphId} {y : Graph} {key : NodeKey}
    {block? : Option BlockKey} (hy : r.graph? g = some y) (hk : y.index.get? key = none) :
    Evolves e r (r.giveNode g key block?) := by
  refine .of_quiet hr (.node hy hk) (nextGraph_reviseGraph _ g _) (fun h z hz => ?_)
    (fun h hn => by simp [hn]) (.of_eq (gathered_reviseGraph _ g _))
  by_cases hh : h = g
  · subst hh
    refine ⟨{ z with index := z.index.insert key r.nextNode }, ?_, rfl, rfl, rfl⟩
    rw [graph?_giveNode, if_pos rfl, hz]
    rfl
  · exact ⟨z, by simpa [hh] using hz, rfl, rfl, rfl⟩

/-- A call that has to be gathered is. -/
theorem Evolves.gather (hr : r.Orderly e.program) {c : NodeId} (hc : r.Gathers e c) :
    Evolves e r { r with gathered := r.gathered.insert c } := by
  refine .of_quiet hr (.unseen rfl rfl rfl rfl) rfl (fun _ y hy => ⟨y, hy, rfl, rfl, rfl⟩)
    (fun _ hn => hn) ⟨fun d hd => OrderedSet.mem_insert.2 (Or.inl hd), fun d hd => ?_⟩
  rcases OrderedSet.mem_insert.1 hd with hd | rfl
  · exact Or.inl hd
  · exact Or.inr hc

theorem Evolves.shared (hr : r.Orderly e.program) {v : ValueId} (hv : r.pool.get? v = none) :
    Evolves e r (r.giveShared v) :=
  .of_quiet hr (.shared hv) rfl (fun _ y hy => ⟨y, hy, rfl, rfl, rfl⟩) (fun _ hn => hn) (.of_eq rfl)

/-! ## Work that lets a registry evolve -/

namespace Work

variable {α β σ : Type}

/-- Whatever orderly registry it is started on, the work lets it evolve. -/
def Evolving (e : Setup) (w : Work α) : Prop :=
  ∀ r : Registry, r.Orderly e.program → wp Fault.Genuine w (fun _ s => Evolves e r s) r

namespace Evolving

theorem pure (a : α) : Evolving e (pure a : Work α) := fun r _ => wp_pure (.refl e r)

theorem throw {f : Fault} (hf : f.Genuine) : Evolving e (throw f : Work α) := fun _ _ => wp_throw hf

theorem bind {w : Work α} {k : α → Work β} (hw : Evolving e w) (hk : ∀ a, Evolving e (k a)) :
    Evolving e (w >>= k) := by
  intro r hr
  refine wp_bind (hw r hr) fun a s hs => ?_
  exact wp_mono (hk a s (hs.orderly hr)) fun _ _ ht => hs.trans ht

/-- Something that is done on a condition, with the rest of the work. -/
theorem when {c : Prop} [Decidable c] {w : Work Unit} {k : Unit → Work β} (hw : Evolving e w)
    (hk : Evolving e (k ())) : Evolving e (if c then w >>= k else k ()) := by
  split
  · exact bind hw fun _ => hk
  · exact hk

theorem forIn {l : List α} {b : σ} {body : α → σ → Work (ForInStep σ)}
    (h : ∀ x b, Evolving e (body x b)) : Evolving e (forIn l b body) := by
  -- the loop ends early or goes on, and evolves in either case
  induction l generalizing b with
  | nil =>
    rw [List.forIn_nil]
    exact pure b
  | cons x l ih =>
    rw [List.forIn_cons]
    refine bind (h x b) fun c => ?_
    cases c with
    | done b => exact pure b
    | yield b => exact ih

/-- Work that only looks at the registry. -/
theorem of_reads {w : Work α} (h : ∀ r, wp Fault.Genuine w (fun _ s => s = r) r) :
    Evolving e w := by
  intro r _
  refine wp_mono (h r) ?_
  intro _ s hs
  subst hs
  exact .refl e s

theorem ask (x : Except Missing α) : Evolving e (ask x) :=
  .of_reads fun _ => wp_last (wp_ask (fun _ _ => wp_pure rfl) nofun)

theorem require {fault : Fault} (hf : fault.Genuine) (x : Option α) :
    Evolving e (require fault x) :=
  .of_reads fun _ => wp_last (wp_require (fun _ _ => wp_pure rfl) fun _ => hf)

theorem graph (g : GraphId) : Evolving e (graph g) :=
  .of_reads fun _ => wp_last (wp_graph (fun _ _ => wp_pure rfl) fun _ => nofun)

theorem report (x : Event) : Evolving e (report x) :=
  .of_reads fun _ => wp_last (wp_report (wp_pure rfl))

theorem addControl (a b : NodeId) : Evolving e (addControl a b) :=
  fun _ hr => wp_last (wp_addControl fun _ _ ha hb => wp_pure (.control hr ha hb))

/-- Entries in a graph that neither parameters and links nor its shape are about. -/
theorem updateGraph (g : GraphId) {f : Graph → Graph} (hf : ∀ y : Graph, y.SameCore (f y))
    (hs : ∀ y : Graph, y.Shaped e.program → (f y).Shaped e.program) :
    Evolving e (updateGraph g f) :=
  fun _ hr => wp_last (wp_updateGraph fun _ _ => wp_pure (.dress hr g hf fun y _ => hs y))

theorem addUnitEdge (g : GraphId) (a b : BlockKey) (label : Nat) :
    Evolving e (addUnitEdge g a b label) := by
  intro r hr
  refine wp_last (wp_addUnitEdge fun y u w hy ha hb => wp_pure ?_)
  refine .dress hr g (fun y => .lead y a b label) fun z hz hshaped => ?_
  rw [hy] at hz
  cases hz
  exact hshaped.lead ha hb label

theorem addUnitControl (g : GraphId) (a b : BlockKey) : Evolving e (addUnitControl g a b) := by
  intro r hr
  refine wp_last (wp_addUnitControl fun y u w hy ha hb => wp_pure ?_)
  refine .dress hr g (fun y => .govern y a b) fun z hz hshaped => ?_
  rw [hy] at hz
  cases hz
  exact hshaped.govern ha hb

end Evolving

end Work

end Sdg
