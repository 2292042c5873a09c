import Mathlib.Data.Finset.Card
import Mathlib.Data.Finset.Prod
import Sdg.Build.Propagation
import Sdg.Proofs.Formals.Actuals

/-!
# Propagation

A new formal parameter goes on to the callers until nothing is new. Each nested round was set off by
a value that became a parameter of a graph, so the pairs of a graph and a value for which this has
not happened yet bound how deep the rounds nest.

Main results:

* `propagate_spec` — propagation ends, and afterwards all links to the graph are up to date;
* `absorb_spec` — a graph that absorbs one that it calls has all its globals and heap objects.
-/

namespace Sdg

namespace Registry

variable {e : Setup} {r s : Registry} {g h : GraphId} {v : ValueId}

/-! ## How much can still happen -/

/-- The graphs and values such that the value is no parameter of the graph yet. -/
def missing (m : Module) (r : Registry) : Finset (Nat × Nat) :=
  (Finset.range r.graphs.next ×ˢ Finset.range m.values.size).filter fun p =>
    (r.graph? ⟨p.1⟩).any (fun y => (EntryId.ofNat? p.2).any fun v => !y.formals.contains v) = true

theorem mem_missing {m : Module} : (g.index, v.index) ∈ r.missing m ↔
    v.index < m.values.size ∧ ∃ y, r.graph? g = some y ∧ y.formals.contains v = false := by
  unfold missing
  simp only [Finset.mem_filter, Finset.mem_product, Finset.mem_range, Option.any_eq_true,
    EntryId.ofNat?_index, Option.some.injEq, exists_eq_left', Bool.not_eq_true']
  constructor
  · intro h
    obtain ⟨⟨_, h2⟩, y, hy, hv⟩ := h
    exact ⟨h2, y, hy, hv⟩
  · intro h
    obtain ⟨h2, y, hy, hv⟩ := h
    exact ⟨⟨Arena.lt_next_of_get? hy, h2⟩, y, hy, hv⟩

/-- The members are pairs of a graph and a value. -/
theorem exists_of_mem_missing {m : Module} {p : Nat × Nat} (hp : p ∈ r.missing m) :
    ∃ (g : GraphId) (v : ValueId), p = (g.index, v.index) := by
  unfold missing at hp
  obtain ⟨_, hp⟩ := Finset.mem_filter.1 hp
  obtain ⟨_, _, hp⟩ := Option.any_eq_true _ _ |>.1 hp
  obtain ⟨v, hv, _⟩ := Option.any_eq_true _ _ |>.1 hp
  exact ⟨⟨p.1⟩, v, Prod.ext rfl (EntryId.index_of_ofNat? hv).symm⟩

/-- How many new parameters there can still be. -/
def room (m : Module) (r : Registry) : Nat := (r.missing m).card

theorem room_le (m : Module) (r : Registry) : r.room m ≤ r.graphs.next * m.values.size := by
  have h := Finset.card_filter_le (Finset.range r.graphs.next ×ˢ Finset.range m.values.size)
    fun p => (r.graph? ⟨p.1⟩).any
      (fun y => (EntryId.ofNat? p.2).any fun v => !y.formals.contains v) = true
  rw [Finset.card_product, Finset.card_range, Finset.card_range] at h
  exact h

theorem missing_subset {m : Module} (h : Spreads e r s) : s.missing m ⊆ r.missing m := by
  intro p hp
  obtain ⟨g, v, rfl⟩ := exists_of_mem_missing hp
  obtain ⟨hlt, y', hy', hv⟩ := mem_missing.1 hp
  obtain ⟨y, hy, _⟩ := h.graph hy'
  refine mem_missing.2 ⟨hlt, y, hy, ?_⟩
  -- what is no parameter now was none before
  cases hc : y.formals.contains v with
  | false => rfl
  | true =>
    rw [contains_grows h.grows hy hy' hc] at hv
    cases hv

theorem room_mono {m : Module} (h : Spreads e r s) : s.room m ≤ r.room m :=
  Finset.card_le_card (missing_subset h)

/-- A new parameter takes up room. -/
theorem room_lt {m : Module} (h : Spreads e r s) {y : Graph} (hy : r.graph? g = some y)
    (hv : y.formals.contains v = false) (hlt : v.index < m.values.size)
    (hs : ∀ y', s.graph? g = some y' → y'.formals.contains v = true) :
    s.room m < r.room m := by
  have hr : (g.index, v.index) ∈ r.missing m := mem_missing.2 ⟨hlt, y, hy, hv⟩
  have hn : (g.index, v.index) ∉ s.missing m := by
    intro hm
    obtain ⟨_, y', hy', hv'⟩ := mem_missing.1 hm
    rw [hs y' hy'] at hv'
    cases hv'
  -- the pair of the graph and the value is missing no more
  exact Finset.card_lt_card ⟨missing_subset h, fun hsub => hn (hsub hr)⟩

end Registry

namespace Work

open Registry

variable {e : Setup} {r : Registry} {c : NodeId} {g h : GraphId} {v : ValueId}

/-! ## One more parameter -/

/-- What making `v` a parameter of `g` does. -/
structure Adds (e : Setup) (r : Registry) (g : GraphId) (v : ValueId) (isNew : Bool)
    (s : Registry) : Prop where
  spreads : Spreads e r s
  others : ∀ h, h ≠ g → s.graph? h = r.graph? h
  contains : s.HasFormal g v
  variadic : s.variadic? g = r.variadic? g
  old : isNew = false → s = r
  new : isNew = true → ∃ y, r.graph? g = some y ∧ y.formals.contains v = false

theorem Adds.room_lt {s : Registry} (h : Adds e r g v true s)
    (hlt : v.index < e.program.values.size) : s.room e.program < r.room e.program := by
  obtain ⟨y, hy, hv⟩ := h.new rfl
  refine Registry.room_lt h.spreads hy hv hlt fun y' hy' => ?_
  obtain ⟨z, hz, hc⟩ := h.contains
  rw [hy'] at hz
  cases hz
  exact hc

/-- A new formal parameter with its edges. -/
theorem spreads_giveFormal {y : Graph} {key : NodeKey} {s : Slot} {en : NodeId} {x : Node}
    (hy : r.graph? g = some y) (hv : y.formals.Vacant s) (hreason : Reason e r g y s)
    (hkey : ∀ v, s = .own v ∨ s = .global v → key = .value v)
    (hen : (r.giveFormal g key s).node? en = some x) :
    Spreads e r (((r.giveFormal g key s).control en r.nextPair.input).control en
      r.nextPair.output) := by
  have hgive : Spread e r (r.giveFormal g key s) := .formal hy hv hreason hkey
  have hi : (r.giveFormal g key s).node? r.nextPair.input = some (.fresh key (some g) none) := by
    simp
  have ho : (r.giveFormal g key s).node? r.nextPair.output = some (.fresh key (some g) none) := by
    simp
  have hcontrol : Spread e _ ((r.giveFormal g key s).control en r.nextPair.input) :=
    .control hen hi
  obtain ⟨_, hen', _⟩ := hcontrol.grows.node _ _ hen
  obtain ⟨_, ho', _⟩ := hcontrol.grows.node _ _ ho
  exact .tail (.tail (.single hgive) hcontrol) (.control hen' ho')

/-- A new parameter for a value leaves the variadic one alone. -/
theorem variadic?_giveFormal {y : Graph} {key : NodeKey} {s : Slot} {v : ValueId}
    (hy : r.graph? g = some y) (hv : y.formals.Vacant s) (hs : s = .own v ∨ s = .global v)
    (en i o : NodeId) :
    (((r.giveFormal g key s).control en i).control en o).variadic? g = r.variadic? g := by
  have hg : (((r.giveFormal g key s).control en i).control en o).graph? g =
      some { y with formals := y.formals.put s r.nextPair } := by
    simp [hy]
  rw [Registry.variadic?, Registry.variadic?, formals?, formals?, hg, hy]
  exact Parameters.variadic?_put hv hs

/-- Entering a parameter in one of the two slots for `v`. -/
theorem addSlot_spec {s : Slot} (hs : s = .own v ∨ s = .global v)
    (hreason : ∀ y, r.graph? g = some y → Reason e r g y s) :
    wp Fault.Genuine (addSlot g s v) (Adds e r g v) r := by
  refine wp_addSlot hs (fun y hy hv => ?_) fun y en x hy hvacant _ hen => ?_
  · exact ⟨.refl, fun _ _ => rfl, ⟨y, hy, hv⟩, rfl, fun _ => rfl, nofun⟩
  · have hg : ((((r.giveFormal g (.value v) s).control en r.nextPair.input).control en
        r.nextPair.output)).graph? g =
          some { y with formals := y.formals.put s r.nextPair } := by
      simp [hy]
    have hfind := Parameters.find?_put (q := r.nextPair) hvacant hs
    exact ⟨spreads_giveFormal hy hvacant (hreason y hy)
      (fun _ => Parameters.key_eq_of_slot hs) hen, fun k hk => by simp [hk],
      ⟨_, hg, Parameters.contains_eq_true_iff.2 ⟨r.nextPair, hfind⟩⟩,
      variadic?_giveFormal hy hvacant hs .., nofun,
      fun _ => ⟨y, hy, (Parameters.vacant_iff hs).1 hvacant⟩⟩

theorem addFormal_spec (hreason : ∀ y, r.graph? g = some y → Reason e r g y (.own v)) :
    wp Fault.Genuine (addFormal g v) (Adds e r g v) r :=
  addSlot_spec (s := .own v) (Or.inl rfl) hreason

theorem addFormalGlobal_spec (hreason : ∀ y, r.graph? g = some y → Reason e r g y (.global v)) :
    wp Fault.Genuine (addFormalGlobal g v) (Adds e r g v) r :=
  addSlot_spec (s := .global v) (Or.inr rfl) hreason

/-! ## Several more -/

/-- What making the values of a list parameters of `g` does; `isChanged` tells whether any was
new. -/
structure AddsAll (e : Setup) (r : Registry) (g : GraphId) (l : List ValueId) (isChanged : Bool)
    (s : Registry) : Prop where
  spreads : Spreads e r s
  others : ∀ h, h ≠ g → s.graph? h = r.graph? h
  contains : ∀ v ∈ l, s.HasFormal g v
  variadic : s.variadic? g = r.variadic? g
  old : isChanged = false → s = r
  new : isChanged = true → s.room e.program < r.room e.program

theorem AddsAll.refl (e : Setup) (r : Registry) (g : GraphId) : AddsAll e r g [] false r :=
  ⟨.refl, fun _ _ => rfl, nofun, rfl, fun _ => rfl, nofun⟩

theorem AddsAll.step {s t : Registry} {l : List ValueId} {b isNew : Bool}
    (h : AddsAll e r g l b s) (k : Adds e s g v isNew t) (hlt : v.index < e.program.values.size) :
    AddsAll e r g (l ++ [v]) (b || isNew) t where
  spreads := h.spreads.trans k.spreads
  others h' hne := (k.others h' hne).trans (h.others h' hne)
  contains w hw := by
    rcases List.mem_append.1 hw with hw | hw
    · exact (h.contains w hw).grows k.spreads.grows
    · rw [List.mem_singleton.1 hw]
      exact k.contains
  variadic := k.variadic.trans h.variadic
  old hb := by
    obtain ⟨hb, hnew⟩ := Bool.or_eq_false_iff.1 hb
    rw [k.old hnew, h.old hb]
  new hb := by
    have h1 := room_mono (m := e.program) h.spreads
    have h2 := room_mono (m := e.program) k.spreads
    -- something was new before, or `v` is
    rcases (Bool.or_eq_true _ _).mp hb with hb | rfl
    · have := h.new hb
      omega
    · have := k.room_lt hlt
      omega

/-- The loop that makes the values of a list parameters. -/
theorem addAll_spec {bad : Fault → Prop} {r₀ : Registry} (l₀ : List ValueId) {l : List ValueId}
    {b : Bool} {add : ValueId → Work Bool}
    (hadd : ∀ v ∈ l, ∀ s, Spreads e r₀ s → wp bad (add v) (Adds e s g v) s)
    (hlt : ∀ v ∈ l, v.index < e.program.values.size) (h₀ : AddsAll e r₀ g l₀ b r) :
    wp bad (forIn l b fun v b => do
      let isNew ← add v
      pure (.yield (b || isNew))) (AddsAll e r₀ g (l₀ ++ l)) r := by
  refine wp_forIn (fun done b s => AddsAll e r₀ g (l₀ ++ done) b s) (by simpa using h₀) ?_
  intro done v rest b s hl hs
  have hv : v ∈ l := mem_of_split hl
  refine wp_bind (hadd v hv s hs.spreads) ?_
  intro isNew t ht
  refine wp_pure ⟨_, rfl, ?_⟩
  have := hs.step ht (hlt v hv)
  rwa [List.append_assoc] at this

/-! ## Absorbing a graph -/

/-- What `propagate` has to do where there is room for fewer than `k` new parameters. -/
def Propagates (e : Setup) (k : Nat) (propagate : GraphId → Work Unit) : Prop :=
  ∀ g s, s.Orderly e.program → s.room e.program < k →
    wp Fault.Genuine (propagate g) (fun _ t => Settles e s t ∧ t.Clean e.program g) s

theorem isArgument_spec {bad : Fault → Prop}
    (hbad : ∀ x, e.program.value v = .error x → bad (.missing x)) :
    wp bad (isArgument e.program v) (fun b s => s = r ∧ v.index < e.program.values.size ∧
      ((!b) = true ↔ ¬ e.program.IsArgument v)) r := by
  unfold isArgument
  refine wp_ask (fun x hx => wp_pure ⟨rfl, Module.index_lt_of_value hx, ?_⟩) hbad
  -- an argument is told by its kind
  cases hk : x.kind with
  | argument f i =>
    have harg : e.program.IsArgument v := ⟨x, f, i, hx, hk⟩
    simp [harg]
  | _ =>
    have hn : ¬ e.program.IsArgument v := by
      intro h
      obtain ⟨x', f, i, hx', hk'⟩ := h
      rw [hx] at hx'
      cases hx'
      rw [hk] at hk'
      cases hk'
    simp [hn]

/-- The heap objects among values. -/
theorem heapOf_spec {bad : Fault → Prop} {l : List ValueId}
    (hbad : ∀ v ∈ l, ∀ x, e.program.value v = .error x → bad (.missing x)) :
    wp bad (l.filterM fun v => return !(← isArgument e.program v))
      (fun l' s => s = r ∧ (∀ v ∈ l, v.index < e.program.values.size) ∧
        ∀ v, v ∈ l' ↔ v ∈ l ∧ ¬ e.program.IsArgument v) r :=
  wp_filterM fun v hv => wp_bind (isArgument_spec (hbad v hv)) fun _ _ hs => wp_pure hs

/-- A global that a graph that `g` calls has may be one of `g`. -/
theorem addHandedGlobal_spec {s : Registry} {z : Graph} (hl : r.Links g h)
    (hz : r.graph? h = some z) (hv : v ∈ z.formals.globals.keys) (hs : Spreads e r s) :
    wp Fault.Genuine (addFormalGlobal g v) (Adds e s g v) s := by
  obtain ⟨q, hq⟩ := OrderedMap.mem_keys.1 hv
  obtain ⟨z', hz', hzz⟩ := hs.grows.graph h z hz
  exact addFormalGlobal_spec fun y _ => .handedGlobal (hl.grows hs.grows) hz'
    (OrderedMap.mem_keys.2 ⟨q, hzz.at? (.global v) q hq⟩)

/-- A heap object that a graph that `g` calls has may be one of `g`. -/
theorem addHandedHeap_spec {s : Registry} {z : Graph} (hl : r.Links g h)
    (hz : r.graph? h = some z) (hv : v ∈ z.formals.own.keys) (hn : ¬ e.program.IsArgument v)
    (hs : Spreads e r s) : wp Fault.Genuine (addFormal g v) (Adds e s g v) s := by
  obtain ⟨q, hq⟩ := OrderedMap.mem_keys.1 hv
  obtain ⟨z', hz', hzz⟩ := hs.grows.graph h z hz
  exact addFormal_spec fun y _ => .handedHeap (hl.grows hs.grows) hz'
    (OrderedMap.mem_keys.2 ⟨q, hzz.at? (.own v) q hq⟩) hn

/-- Global parameters are values of the module. -/
theorem index_lt_of_global {z : Graph} (hr : r.Orderly e.program) (hz : r.graph? h = some z)
    (hv : v ∈ z.formals.globals.keys) : v.index < e.program.values.size := by
  obtain ⟨q, hq⟩ := OrderedMap.mem_keys.1 hv
  obtain ⟨x, hx, _⟩ := Module.value_of_isGlobal (hr.sorted h z v q hz hq)
  exact Module.index_lt_of_value hx

theorem absorbed_self (m : Module) (r : Registry) (g : GraphId) : r.Absorbed m g g := by
  intro y z v hy hz hv
  rw [hy] at hz
  cases hz
  refine Parameters.contains_eq_true_iff_at?.2 ?_
  rcases hv with hv | ⟨hv, _⟩
  · obtain ⟨q, hq⟩ := OrderedMap.mem_keys.1 hv
    exact ⟨q, Or.inr hq⟩
  · obtain ⟨q, hq⟩ := OrderedMap.mem_keys.1 hv
    exact ⟨q, Or.inl hq⟩

/-- A graph that absorbs one that it calls has all its globals and heap objects, also those that
this one got meanwhile. -/
theorem absorbWith_spec {k : Nat} {propagate : GraphId → Work Unit}
    (hp : Propagates e k propagate) (hr : r.Orderly e.program) (hk : r.room e.program ≤ k)
    (hl : r.Links g h) : wp Fault.Genuine (absorbWith propagate e.program g h)
      (fun _ s => Settles e r s ∧ s.Absorbed e.program g h) r := by
  unfold absorbWith
  refine wp_graph (fun z hz => ?_) fun _ => nofun
  refine wp_bind (heapOf_spec fun _ _ _ _ => nofun) ?_
  intro heap r hpost
  obtain ⟨rfl, hlt, hheap⟩ := hpost
  -- what `h` has now it still has while `g` gets its parameters, so each of them has its reason
  have hglobal : ∀ v ∈ z.formals.globals.keys, ∀ s, Spreads e r s →
      wp Fault.Genuine (addFormalGlobal g v) (Adds e s g v) s :=
    fun v hv s hs => addHandedGlobal_spec hl hz hv hs
  have hown : ∀ v ∈ heap, ∀ s, Spreads e r s →
      wp Fault.Genuine (addFormal g v) (Adds e s g v) s := by
    intro v hv s hs
    obtain ⟨hv, hn⟩ := (hheap v).1 hv
    exact addHandedHeap_spec hl hz hv hn hs
  have hglobalLt : ∀ v ∈ z.formals.globals.keys, v.index < e.program.values.size :=
    fun v hv => index_lt_of_global hr hz hv
  have hownLt : ∀ v ∈ heap, v.index < e.program.values.size :=
    fun v hv => hlt v ((hheap v).1 hv).1
  refine wp_bind (addAll_spec [] hglobal hglobalLt (.refl e r g)) ?_
  intro b₁ s₁ h₁
  refine wp_bind (addAll_spec _ hown hownLt h₁) ?_
  intro b s hs
  have hall : ∀ v, v ∈ z.formals.globals.keys ∨
      v ∈ z.formals.own.keys ∧ ¬ e.program.IsArgument v → s.HasFormal g v := by
    intro v hv
    refine hs.contains v (List.mem_append.2 ?_)
    rcases hv with hv | hv
    · exact Or.inl hv
    · exact Or.inr ((hheap v).2 hv)
  cases b with
  | false =>
    -- nothing was new, so nothing happened
    rw [hs.old rfl] at hall ⊢
    refine wp_pure ⟨.refl e r, fun y z' v hy hz' hv => ?_⟩
    rw [hz] at hz'
    cases hz'
    obtain ⟨y', hy', hc⟩ := hall v hv
    rw [hy] at hy'
    cases hy'
    exact hc
  | true =>
    -- what was new took up room, so the next round may nest
    have hroom : s.room e.program < k := Nat.lt_of_lt_of_le (hs.new rfl) hk
    refine wp_report (wp_mono (hp g s (hs.spreads.orderly hr) hroom) ?_)
    intro _ t hpost
    obtain ⟨ht, hclean⟩ := hpost
    refine ⟨.of_new hs.spreads hs.others hs.variadic ht hclean, ?_⟩
    by_cases hhg : h = g
    · subst hhg
      exact absorbed_self _ t h
    · rcases ht.keeps h with hf | hc
      · -- `h` got nothing meanwhile
        intro y z' v hy hz' hv
        obtain ⟨z'', hz'', hformals⟩ := graph?_of_formals?_eq hf hz'
        rw [hs.others h hhg, hz] at hz''
        cases hz''
        rw [hformals] at hv
        obtain ⟨y', hy', hcont⟩ := hall v hv
        exact contains_grows ht.spreads.grows hy' hy hcont
      · -- `h` got more, and handed it on to all its callers
        obtain ⟨c, ho, hcall⟩ := hl
        have hgr : r.Grows t := hs.spreads.grows.trans ht.spreads.grows
        exact (hc c (hcall.grows hgr)).absorbed g (ho.grows hgr)

/-! ## Propagation -/

/-- A call that binds the parameters of the graph that it is linked to, and whose own graph then
absorbs that graph, is up to date with it. -/
theorem updateCaller_spec {k : Nat} {propagate : GraphId → Work Unit} {args : List ValueId}
    (hp : Propagates e k propagate) (hr : r.Orderly e.program) (hk : r.room e.program ≤ k)
    (hc : r.IsCall e.program c h args) (hcall : r.Calls c g) :
    wp Fault.Genuine (bindActuals e.program c g >>= fun _ => absorbWith propagate e.program h g)
      (fun _ s => Settles e r s ∧ s.Settled e.program c g) r := by
  refine wp_bind (bindActuals_spec hc hcall) ?_
  intro _ s hpost
  obtain ⟨hs, hbound⟩ := hpost
  have hso := hs.spreads.orderly hr
  have hroom : s.room e.program ≤ k := (room_mono hs.spreads).trans hk
  have hcall' : s.Calls c g := hcall.grows hs.grows
  have ho : s.OwnedBy c h := hc.ownedBy.grows hs.grows
  refine wp_mono (absorbWith_spec hp hso hroom ⟨c, ho, hcall'⟩) ?_
  intro _ t hpost
  obtain ⟨ht, habs⟩ := hpost
  refine ⟨hs.settles.trans hr ht, ?_⟩
  rcases ht.keeps g with hf | hclean
  · -- the graph got nothing while it was absorbed, so what was bound is all of it
    refine ⟨hbound.grows ht.spreads.grows hcall' hf, fun h' ho' => ?_⟩
    have hh : h = h' := (ho.grows ht.spreads.grows).inj ho'
    subst hh
    exact habs
  · -- it got more, and that has settled all its links
    exact hclean c (hcall'.grows ht.spreads.grows)

/-- Brings all callers of `g` up to date with its formals. Whoever gets new ones by that has
`nested` bring its own callers up to date. -/
def propagateRound (nested : GraphId → Work Unit) (m : Module) (g : GraphId) : Work Unit := do
  for call in (← graph g).callers.toList do
    if let some caller := (← node call).graph? then
      bindActuals m call g
      absorbWith nested m caller g

theorem propagateWithin_succ (m : Module) (depth : Nat) :
    propagateWithin m (depth + 1) = propagateRound (propagateWithin m depth) m := rfl

/-- A round brings all links to the graph up to date. -/
theorem propagateRound_spec {k : Nat} {nested : GraphId → Work Unit} (hp : Propagates e k nested)
    (hr : r.Orderly e.program) (hk : r.room e.program ≤ k) :
    wp Fault.Genuine (propagateRound nested e.program g)
      (fun _ s => Settles e r s ∧ s.Clean e.program g) r := by
  unfold propagateRound
  refine wp_graph (fun y hy => ?_) fun _ => nofun
  have hcalls : ∀ c ∈ y.callers, r.Calls c g :=
    fun c hc => (hr.mirrored.calls c g).2 ⟨y, hy, hc⟩
  -- the callers that were worked through are up to date, and the others will be
  refine wp_bind (wp_forIn (fun done _ s => Settles e r s ∧
    ∀ c ∈ done, s.Settled e.program c g) ⟨.refl e r, nofun⟩ ?_) ?_
  · intro done c rest _ s hl hpost
    obtain ⟨hs, hdone⟩ := hpost
    have hso := hs.spreads.orderly hr
    have hmem : ∀ d ∈ done ++ c :: rest, r.Calls d g := by
      intro d hd
      rw [← hl] at hd
      exact hcalls d hd
    have hcall : r.Calls c g := hmem c (by simp)
    -- a caller is a call, so it has a graph
    obtain ⟨h, args, his⟩ := hr.linked c g hcall
    have his' : s.IsCall e.program c h args := his.grows hs.spreads.grows
    obtain ⟨x, hx, hxh⟩ := his'.ownedBy
    refine wp_node (fun x' hx' => ?_) fun _ => nofun
    rw [hx] at hx'
    cases hx'
    rw [hxh]
    have hroom : s.room e.program ≤ k := (room_mono hs.spreads).trans hk
    show wp Fault.Genuine (bindActuals e.program c g >>= fun _ =>
      absorbWith nested e.program h g >>= fun _ => _) _ s
    rw [← bind_assoc]
    refine wp_bind (updateCaller_spec hp hso hroom his' (hcall.grows hs.spreads.grows)) ?_
    intro _ t hpost
    obtain ⟨ht, hset⟩ := hpost
    refine wp_pure ⟨_, rfl, hs.trans hr ht, fun d hd => ?_⟩
    rcases List.mem_append.1 hd with hd | hd
    · have hdcall : s.Calls d g := (hmem d (by simp [hd])).grows hs.spreads.grows
      exact ht.settled hso hdcall (hdone d hd)
    · rw [List.mem_singleton.1 hd]
      exact hset
  · intro _ s hpost
    obtain ⟨hs, hdone⟩ := hpost
    refine wp_pure ⟨hs, fun c hc => ?_⟩
    -- the callers are those that there were at the beginning
    obtain ⟨y', hy', hcy⟩ := (hr.mirrored.calls c g).1 ((hs.spreads.calls_iff c g).1 hc)
    rw [hy] at hy'
    cases hy'
    exact hdone c hcy

/-- **Propagation.** Nested rounds as deep as there is room bring all links to the graph up to
date. -/
theorem propagateWithin_spec (e : Setup) :
    ∀ depth, Propagates e depth (propagateWithin e.program depth)
  | 0 => fun _ _ _ hroom => absurd hroom (Nat.not_lt_zero _)
  | depth + 1 => fun _ _ hr hroom =>
    propagateRound_spec (propagateWithin_spec e depth) hr (Nat.le_of_lt_succ hroom)

/-- Propagation ends, and afterwards all links to the graph are up to date. -/
theorem propagate_spec (hr : r.Orderly e.program) : wp Fault.Genuine (propagate e.program g)
    (fun _ s => Settles e r s ∧ s.Clean e.program g) r := by
  unfold propagate
  refine wp_registry (propagateWithin_spec e _ g r hr ?_)
  have := r.room_le e.program
  omega

theorem propagates (e : Setup) (k : Nat) : Propagates e k (propagate e.program) :=
  fun _ _ hs _ => propagate_spec hs

/-- **Absorption.** -/
theorem absorb_spec (hr : r.Orderly e.program) (hl : r.Links g h) :
    wp Fault.Genuine (absorb e.program g h)
      (fun _ s => Settles e r s ∧ s.Absorbed e.program g h) r :=
  absorbWith_spec (propagates e _) hr (Nat.le_refl _) hl

/-! ## Discovery -/

/-- A new parameter is handed on to the callers. -/
theorem discover_spec {add : Work Bool} {event : Event} (hr : r.Orderly e.program)
    (hadd : wp Fault.Genuine add (Adds e r g v) r) :
    wp Fault.Genuine (do
      if ← add then
        report event
        propagate e.program g) (fun _ s => Settles e r s ∧ s.HasFormal g v) r := by
  refine wp_bind hadd ?_
  intro b s hs
  cases b with
  | false =>
    -- nothing was new, so nothing happened
    rw [← hs.old rfl]
    exact wp_pure ⟨.refl e s, hs.contains⟩
  | true =>
    refine wp_report (wp_mono (propagate_spec (hs.spreads.orderly hr)) ?_)
    intro _ t hpost
    obtain ⟨ht, hclean⟩ := hpost
    exact ⟨.of_new hs.spreads hs.others hs.variadic ht hclean, hs.contains.grows ht.spreads.grows⟩

theorem discoverGlobal_spec (hr : r.Orderly e.program)
    (hreason : ∀ y, r.graph? g = some y → Reason e r g y (.global v)) :
    wp Fault.Genuine (discoverGlobal e.program g v)
      (fun _ s => Settles e r s ∧ s.HasFormal g v) r :=
  discover_spec hr (addFormalGlobal_spec hreason)

theorem discoverHeap_spec (hr : r.Orderly e.program)
    (hreason : ∀ y, r.graph? g = some y → Reason e r g y (.own v)) :
    wp Fault.Genuine (discoverHeap e.program g v)
      (fun _ s => Settles e r s ∧ s.HasFormal g v) r :=
  discover_spec hr (addFormal_spec hreason)

end Work

end Sdg
