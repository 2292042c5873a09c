import Sdg.Build.Calls
import Sdg.Proofs.Building.Evolution

/-!
# Linking

A call is linked to the graph of every function that it may run. Between the new link and the last
binding the link is not settled, and the graph that it goes to may still be in the middle of its own
build. What makes the link settled in the end is that its call absorbs that graph and then binds it.

Main results:

* `linkCall_spec` — linking a call leaves the links settled that were, and the new one too;
* `visitCall_spec` — a call is listed and linked to all that it may run, and if it allocates it is a
  parameter of its graph.
-/

namespace Sdg

namespace Registry

variable {m : Module} {r s : Registry} {f : FunctionId} {g : GraphId}

/-! ## How many functions have no graph -/

/-- What is found for a function is its graph. -/
theorem Enrolled.hosts (hr : r.Enrolled) (h : r.lookup? f = some g) : r.Hosts g f := (hr f g).1 h

/-- The functions of the module that have no graph. -/
def unregistered (m : Module) (r : Registry) : Finset Nat :=
  (Finset.range m.functions.size).filter fun i =>
    (EntryId.ofNat? i).any (fun f => (r.lookup? f).isNone) = true

theorem mem_unregistered :
    f.index ∈ r.unregistered m ↔ f.index < m.functions.size ∧ r.lookup? f = none := by
  simp only [unregistered, Finset.mem_filter, Finset.mem_range, EntryId.ofNat?_index,
    Option.any_some, Option.isNone_iff_eq_none]

theorem unregistered_subset (hg : r.Grows s) : s.unregistered m ⊆ r.unregistered m := by
  intro i hi
  have hi' := hi
  unfold unregistered at hi'
  obtain ⟨_, hany⟩ := Finset.mem_filter.1 hi'
  obtain ⟨f, hf, _⟩ := Option.any_eq_true _ _ |>.1 hany
  -- the number is that of a function
  rw [← EntryId.index_of_ofNat? hf] at hi ⊢
  obtain ⟨hlt, hn⟩ := mem_unregistered.1 hi
  refine mem_unregistered.2 ⟨hlt, Option.eq_none_iff_forall_ne_some.2 fun g hg' => ?_⟩
  rw [hg.lookup? _ g hg'] at hn
  cases hn

/-- How many functions of the module have no graph. -/
def pending (m : Module) (r : Registry) : Nat := (r.unregistered m).card

theorem pending_mono (hg : r.Grows s) : s.pending m ≤ r.pending m :=
  Finset.card_le_card (unregistered_subset hg)

theorem pending_le (m : Module) (r : Registry) : r.pending m ≤ m.functions.size := by
  have h := Finset.card_filter_le (Finset.range m.functions.size) fun i =>
    (EntryId.ofNat? i).any (fun f => (r.lookup? f).isNone) = true
  rwa [Finset.card_range] at h

/-- A function that gets its graph is pending no more. -/
theorem pending_lt (hg : r.Grows s) (hn : r.lookup? f = none) (hs : s.lookup? f = some g)
    (hlt : f.index < m.functions.size) : s.pending m < r.pending m := by
  have hr : f.index ∈ r.unregistered m := mem_unregistered.2 ⟨hlt, hn⟩
  have hns : f.index ∉ s.unregistered m := by
    intro h
    rw [(mem_unregistered.1 h).2] at hs
    cases hs
  -- the function was without a graph and has one now
  exact Finset.card_lt_card ⟨unregistered_subset hg, fun hsub => hns (hsub hr)⟩

/-- With the graph that is made for it, a function is pending no more. -/
theorem pending_pushGraph_lt (hn : r.lookup? f = none) (hlt : f.index < m.functions.size) :
    (r.pushGraph (.fresh f)).pending m < r.pending m := by
  have hpush : Quiet m r (r.pushGraph (.fresh f)) := .graph hn
  have hfound : (r.pushGraph (.fresh f)).lookup? f = some r.nextGraph := by simp [Graph.fresh]
  exact pending_lt hpush.grows hn hfound hlt

end Registry

namespace Work

open Registry

variable {e : Setup} {r : Registry} {c : NodeId} {g h : GraphId} {f : FunctionId} {k : Nat}
  {request : FunctionId → Work GraphId}

/-- What `request` has to do where fewer than `k` functions have no graph. -/
def Requests (e : Setup) (k : Nat) (request : FunctionId → Work GraphId) : Prop :=
  ∀ f r, r.Orderly e.program → r.pending e.program < k →
    wp Fault.Genuine (request f) (fun g s => Evolves e r s {f} ∧ s.Hosts g f) r

/-! ## One link -/

/-- The call is linked afterwards, by a new link if it was not before. -/
theorem addLink_spec : wp Fault.Genuine (addLink c g) (fun isNew s =>
    (isNew = false → s = r ∧ r.Calls c g) ∧
    (isNew = true → s = r.link c g ∧ ¬ r.Calls c g ∧ (∃ y, r.graph? g = some y) ∧
      ∃ x, r.node? c = some x)) r := by
  unfold addLink
  refine wp_node (fun x hx => ?_) fun _ => nofun
  by_cases hg : g ∈ x.callees
  · rw [if_pos hg]
    exact wp_pure ⟨fun _ => ⟨rfl, x, hx, hg⟩, nofun⟩
  · rw [if_neg hg]
    unfold putNode
    refine wp_modifyRegistry ?_
    rw [reviseNode_eq hx fun x => { x with callees := x.callees.insert g }]
    refine wp_updateGraph ?_
    intro y hy
    rw [graph?_reviseNode] at hy
    refine wp_pure ⟨nofun, fun _ => ⟨rfl, ?_, ⟨y, hy⟩, x, hx⟩⟩
    intro h
    obtain ⟨x', hx', hg'⟩ := h
    rw [hx] at hx'
    cases hx'
    exact hg hg'

/-- A new link leaves the formal parameters alone. -/
theorem formals?_link (c : NodeId) (g k : GraphId) :
    (r.link c g).formals? k = r.formals? k := by
  rw [formals?, formals?, graph?_link]
  split
  · rw [Option.map_map]
    rfl
  · rfl

/-- A new link makes no graph. -/
theorem numbers_link : r.Numbers (r.link c g) := by
  refine .of_eq (nextGraph_reviseGraph _ _ _ |>.trans (nextGraph_reviseNode _ _ _)) fun k => ?_
  rw [graph?_link]
  split <;> simp

theorem hosts_link {i : GraphId} : (r.link c g).Hosts i f ↔ r.Hosts i f := by
  unfold Hosts
  rw [graph?_link]
  split <;> simp

/-- A new link keeps what other links have settled. -/
theorem settled_link (hr : r.Orderly e.program) (hgrows : r.Grows (r.link c g)) {d : NodeId}
    {k : GraphId} (hd : r.Calls d k) (hs : r.Settled e.program d k) :
    (r.link c g).Settled e.program d k :=
  hs.grows hr hgrows hd (formals?_link c g _)

/-- After a new link everything is as before but for that link. -/
theorem evolves_link {s : Registry} {args : List ValueId} {y : Graph} (hr : r.Orderly e.program)
    (hc : r.IsCall e.program c h args) (hy : r.graph? g = some y) (hn : ¬ r.Calls c g)
    (hmay : r.MayCall e c h g) (hs : Evolves e (r.link c g) s) (hset : s.Settled e.program c g) :
    Evolves e r s where
  changes := .trans (.single (.link hc hy hn hmay)) hs.changes
  settled d k hd hdk := by
    have hgrows : r.Grows (r.link c g) := (Change.link hc hy hn hmay).grows
    exact hs.settled d k (hd.grows hgrows) (settled_link hr hgrows hd hdk)
  linked d k hd := by
    obtain ⟨x, _, _, hx, _⟩ := hc
    -- the link is an old one, the new one, or one that came after it
    rcases hs.linked d k hd with hd | hdk
    · rcases (calls_link hx d k).1 hd with hd | ⟨rfl, rfl⟩
      · exact Or.inl hd
      · exact Or.inr hset
    · exact Or.inr hdk
  old k z hz := by
    -- the new link is one more caller and one more reference
    have hlink : ∃ z', (r.link c g).graph? k = some z' ∧ z'.phase = z.phase ∧
        z'.refcount + z.callers.size = z.refcount + z'.callers.size := by
      rw [graph?_link, hz]
      split
      · rename_i hk
        subst hk
        have hmem : c ∉ z.callers := fun hm => hn ((hr.mirrored.calls c k).2 ⟨z, hz, hm⟩)
        refine ⟨_, rfl, rfl, ?_⟩
        show z.refcount + 1 + z.callers.size = z.refcount + (z.callers.insert c).size
        rw [OrderedSet.size_insert_of_not_mem hmem]
        omega
      · exact ⟨z, rfl, rfl, rfl⟩
    obtain ⟨z', hz', hp, hc⟩ := hlink
    obtain ⟨z'', hz'', hp', hc'⟩ := hs.old k z' hz'
    exact ⟨z'', hz'', hp'.trans hp, by omega⟩
  fresh k z' hk hz' := by
    refine hs.fresh k z' ?_ hz'
    rw [graph?_link, hk]
    split <;> rfl
  rooted k z' hk hz' := by
    have hk' : (r.link c g).graph? k = none := by
      rw [graph?_link, hk]
      split <;> rfl
    obtain ⟨f, hf | ⟨i, hi⟩, hreach⟩ := hs.rooted k z' hk' hz'
    · exact hf.elim
    · exact ⟨f, Or.inr ⟨i, hosts_link.1 hi⟩, hreach⟩
  numbers := numbers_link.trans hs.numbers
  loops k := by
    rw [← variadic?_eq (formals?_link (r := r) c g k)]
    exact hs.loops k
  collects := by
    have hlink : (r.link c g).gathered = r.gathered := by simp [link]
    exact (Collects.of_eq hlink).trans hs.grows hs.collects

/-- Binding after absorbing settles a link. -/
theorem settle_spec {args : List ValueId} (hr : r.Orderly e.program)
    (hc : r.IsCall e.program c h args) (hlink : r.Calls c g) :
    wp Fault.Genuine (absorb e.program h g >>= fun _ => bindActuals e.program c g)
      (fun _ s => Evolves e r s ∧ s.Settled e.program c g) r := by
  refine wp_bind (absorb_spec hr ⟨c, hc.ownedBy, hlink⟩) ?_
  intro _ s hpost
  obtain ⟨hs, habs⟩ := hpost
  have hso : s.Orderly e.program := hs.spreads.orderly hr
  have hc' : s.IsCall e.program c h args := hc.grows hs.spreads.grows
  refine wp_mono (bindActuals_spec hc' (hlink.grows hs.spreads.grows)) ?_
  intro _ t hpost
  obtain ⟨ht, hbound⟩ := hpost
  refine ⟨.of_settles hr (hs.trans hr ht.settles), hbound, fun h' ho => ?_⟩
  have heq : h = h' := (hc'.ownedBy.grows ht.grows).inj ho
  subst heq
  obtain ⟨_, y, _, _, _, hy, _⟩ := hc'
  exact habs.grows ht.grows hy (ht.formals?_eq g)

/-- A call is recorded in the unit of its block. -/
theorem evolves_site {args : List ValueId} {k : BlockKey} (hr : r.Orderly e.program)
    (hc : r.IsCall e.program c h args) : Evolves e r (r.reviseGraph h fun y =>
      y.modifyUnit k fun u => { u with callSites := u.callSites.insert c }) := by
  refine .dress hr h (fun y => .modifyUnit y k _) fun z hz hshaped => ?_
  obtain ⟨_, y, _, _, _, hy, _, _, hlisted⟩ := hc
  rw [hz] at hy
  cases hy
  exact hshaped.site hlisted

/-- A linked call gets its edges and its bindings, whatever its link is to. -/
theorem settleLink_spec {args : List ValueId} {b : BlockId} (hr : r.Orderly e.program)
    (hc : r.IsCall e.program c h args) (hlink : r.Calls c g) (hg : r.Hosts g f) :
    wp Fault.Genuine (settleLink e.program b c h g)
      (fun _ s => Evolves e r s ∧ s.Settled e.program c g ∧ s.LinkedTo c f) r := by
  unfold settleLink
  refine wp_entry fun y en hy _ => ?_
  refine wp_addControl fun x z hx hz => ?_
  have hcontrol : Evolves e r (r.control c en) := .control hr hx hz
  refine wp_updateUnit fun _ _ _ _ => ?_
  have hsite := hcontrol.trans (evolves_site (k := .block b) (hcontrol.orderly hr)
    (hc.grows hcontrol.grows))
  refine wp_mono (settle_spec (hsite.orderly hr) (hc.grows hsite.grows)
    (hlink.grows hsite.grows)) ?_
  intro _ s hpost
  obtain ⟨hs, hset⟩ := hpost
  have h := hsite.trans hs
  exact ⟨h, hset, g, hlink.grows h.grows, hg.grows h.grows⟩

/-- **Linking.** A call that may run a function is linked to its graph afterwards. -/
theorem linkCall_spec {args : List ValueId} {fn : FunctionId} {v : ValueId} {b : BlockId}
    (hreq : Requests e k request) (hr : r.Orderly e.program) (hk : r.pending e.program < k)
    (hc : r.IsCall e.program c h args) (hkey : r.Keyed c (.value v)) (hh : r.Hosts h fn)
    (hv : e.program.InBody fn v) (hruns : e.MayRun v f) :
    wp Fault.Genuine (linkCall request e.program b c f)
      (fun _ s => Evolves e r s ∧ s.LinkedTo c f) r := by
  unfold linkCall
  refine wp_checkCall (wp_owner fun h' ho => ?_)
  have heq : h' = h := ho.inj hc.ownedBy
  subst heq
  -- the graph of the callee, built if need be
  refine wp_bind (hreq f r hr hk) ?_
  intro g r₁ hpost
  obtain ⟨hasked, hg₁⟩ := hpost
  have h₁ : Evolves e r r₁ := hasked.of_called hh ⟨v, hv, hruns⟩
  have hr₁ := h₁.orderly hr
  have hc₁ := hc.grows h₁.grows
  refine wp_bind addLink_spec ?_
  intro isNew r₂ hpost
  obtain ⟨hold, hnew⟩ := hpost
  -- the link was there, or it is new
  cases isNew with
  | false =>
    obtain ⟨rfl, hlink⟩ := hold rfl
    refine wp_mono (settleLink_spec hr₁ hc₁ hlink hg₁) ?_
    intro _ s hpost
    obtain ⟨hs, _, hlinked⟩ := hpost
    exact ⟨h₁.trans hs, hlinked⟩
  | true =>
    obtain ⟨rfl, hn, ⟨y, hy⟩, _⟩ := hnew rfl
    have hmay : r₁.MayCall e c h' g := by
      obtain ⟨x, hx, hxv⟩ := hkey.grows h₁.grows
      obtain ⟨z, hz, rfl⟩ := hh.grows h₁.grows
      exact ⟨v, x, z, y, hx, hxv, hz, hy, hv, by rwa [hg₁.function_eq hy]⟩
    have hchange : Change e r₁ (r₁.link c g) := .link hc₁ hy hn hmay
    obtain ⟨x, _, _, hx, _⟩ := id hc₁
    refine wp_ask (fun _ _ => wp_report ?_) nofun
    refine wp_mono (settleLink_spec (hr₁.change hchange) (hc₁.grows hchange.grows)
      ((calls_link hx c g).2 (Or.inr ⟨rfl, rfl⟩)) (hg₁.grows hchange.grows)) ?_
    intro _ s hpost
    obtain ⟨hs, hset, hlinked⟩ := hpost
    exact ⟨h₁.trans (evolves_link hr₁ hc₁ hy hn hmay hs hset), hlinked⟩

/-! ## Calls -/

/-- A call of a function whose calls are gathered is gathered. No graph shows it. -/
theorem gather_spec {bad : Fault → Prop} {args : List ValueId} {v callee : ValueId} {x : Function}
    (hr : r.Orderly e.program) (hc : r.IsCall e.program c g args) (hkey : r.Keyed c (.value v))
    (hcall : e.program.IsCallOf v callee args) (hname : e.program.Names callee (some f))
    (hx : e.program.function f = .ok x) :
    wp bad (if e.settings.gathered = some x.name then
      modifyRegistry fun r => { r with gathered := r.gathered.insert c } else pure ())
        (fun _ s => Evolves e r s ∧ s.graph? = r.graph? ∧
          (e.settings.gathered = some x.name → c ∈ s.gathered)) r := by
  split
  · rename_i hon
    have hgathers : r.Gathers e c :=
      ⟨g, args, v, hc, hkey, callee, args, f, x, hcall, hname, hx, hon⟩
    refine wp_last (wp_modifyRegistry (wp_pure ⟨.gather hr hgathers, rfl, fun _ => ?_⟩))
    exact OrderedSet.mem_insert.2 (Or.inr rfl)
  · rename_i hoff
    exact wp_pure ⟨.refl e r, rfl, fun hon => absurd hon hoff⟩

/-- A call of a named function, which there is: if that allocates, the call is a parameter of its
graph afterwards, if it has a body, the call is linked, and if its calls are gathered, this one is.
-/
theorem visitDirectCall_spec {args : List ValueId} {fn : FunctionId} {v callee : ValueId}
    {b : BlockId} (hreq : Requests e k request) (hr : r.Orderly e.program)
    (hk : r.pending e.program < k) (hc : r.IsCall e.program c g args)
    (hkey : r.Keyed c (.value v)) (hg : r.Hosts g fn) (hv : e.program.InBody fn v)
    (hcall : e.program.IsCallOf v callee args) (hname : e.program.Names callee (some f)) :
    wp Fault.Genuine (visitDirectCall request e g b c v f) (fun _ s => Evolves e r s ∧
      ∃ x, e.program.function f = .ok x ∧
        (e.settings.isAllocator x.name = true → s.HasFormal g v) ∧
          (x.isDefined = true → s.LinkedTo c f) ∧
            (e.settings.gathered = some x.name → c ∈ s.gathered)) r := by
  unfold visitDirectCall
  refine wp_ask (fun x hx => ?_) nofun
  have hlink : ∀ s : Registry, s.Orderly e.program → r.Grows s →
      wp Fault.Genuine (if x.isDefined = true then linkCall request e.program b c f else pure ())
        (fun _ t => Evolves e s t ∧ (x.isDefined = true → t.LinkedTo c f)) s := by
    intro s hs hgrows
    split
    · rename_i hdef
      refine wp_mono (linkCall_spec hreq hs (Nat.lt_of_le_of_lt (pending_mono hgrows) hk)
        (hc.grows hgrows) (hkey.grows hgrows) (hg.grows hgrows) hv
        (.named hcall hname hx hdef)) ?_
      intro _ t hpost
      obtain ⟨ht, hlinked⟩ := hpost
      exact ⟨ht, fun _ => hlinked⟩
    · rename_i hdef
      exact wp_pure ⟨.refl e s, fun h => absurd h hdef⟩
  -- the call is gathered, linked, and taken for an allocation, each if asked to
  refine wp_when (wp_bind (gather_spec hr hc hkey hcall hname hx) ?_)
  intro _ r₁ hpost
  obtain ⟨h₁, _, hgathered⟩ := hpost
  refine wp_when (wp_bind (hlink r₁ (h₁.orderly hr) h₁.grows) ?_)
  intro _ r₂ hpost
  obtain ⟨h₂, hlinked⟩ := hpost
  have h₁₂ := h₁.trans h₂
  have hgathered₂ := fun hon => h₂.collects.kept c (hgathered hon)
  by_cases halloc : e.settings.isAllocator x.name = true
  · rw [if_pos halloc]
    have hreason : ∀ y, r₂.graph? g = some y → Reason e r₂ g y (.own v) := by
      intro y hy
      have hy' := (hg.grows h₁₂.grows).function_eq hy
      exact .allocated (hy' ▸ ⟨hv, callee, args, f, x, hcall, hname, hx, halloc⟩)
    refine wp_report (wp_mono (discoverHeap_spec (h₁₂.orderly hr) hreason) ?_)
    intro _ s hpost
    obtain ⟨hs, hhas⟩ := hpost
    refine ⟨h₁₂.trans (.of_settles (h₁₂.orderly hr) hs), x, hx, fun _ => hhas, fun hdef => ?_,
      fun hon => ?_⟩
    · exact (hlinked hdef).grows hs.spreads.grows
    · rw [hs.spreads.gathered_eq]
      exact hgathered₂ hon
  · rw [if_neg halloc]
    exact wp_pure ⟨h₁₂, x, hx, fun ha => absurd ha halloc, hlinked, hgathered₂⟩

/-- Whether a call fits is asked only where there is a body. -/
theorem wp_fits {bad : Fault → Prop} {m : Module} {x : Function} {v : ValueId}
    {args : List ValueId} (hbad : x.isDefined = true → ∀ err, m.callFits x v args = .error err →
      bad (.missing err)) :
    wp bad (if x.isDefined = true then ask (m.callFits x v args) else pure false)
      (fun fits s => s = r ∧ (fits = true ↔ x.isDefined = true ∧
        m.callFits x v args = .ok true)) r := by
  split
  · rename_i hdef
    refine wp_last (wp_ask (fun fits hfits => wp_pure ⟨rfl, ?_⟩) (hbad hdef))
    rw [hfits]
    simp [hdef]
  · rename_i hdef
    exact wp_pure ⟨rfl, by simp [hdef]⟩

/-- A call is linked to what a pointee leads to. -/
theorem visitPointee_spec {args : List ValueId} {fn : FunctionId} {v : ValueId} {b : BlockId}
    {p : Pointee} (hreq : Requests e k request) (hr : r.Orderly e.program)
    (hk : r.pending e.program < k) (hc : r.IsCall e.program c g args)
    (hkey : r.Keyed c (.value v)) (hg : r.Hosts g fn) (hv : e.program.InBody fn v)
    (hruns : ∀ f, p.LeadsTo e.program v args f → e.MayRun v f) :
    wp Fault.Genuine (visitPointee request e.program b c v args p) (fun _ s => Evolves e r s ∧
      ∀ f, p.LeadsTo e.program v args f → s.LinkedTo c f) r := by
  unfold visitPointee
  split
  · rename_i hinvalid
    refine wp_pure ⟨.refl e r, ?_⟩
    intro f hpost
    obtain ⟨hvalid, _⟩ := hpost
    simp [hvalid] at hinvalid
  rename_i hinvalid
  have hvalid : p.isValid = true := by simpa using hinvalid
  refine wp_ask (fun t ht => wp_ask (fun f? hf? => ?_) nofun) nofun
  have hnames : e.program.Names p.target f? := ⟨t, ht, hf?⟩
  cases f? with
  | some f =>
    refine wp_ask (fun x hx => ?_) nofun
    have hleads : ∀ f', p.LeadsTo e.program v args f' ↔ f' = f ∧ x.isDefined = true ∧
        e.program.callFits x v args = .ok true := fun _ =>
      Pointee.leadsTo_iff hvalid hnames hx
    refine wp_ite (wp_bind (wp_fits fun _ => nofun) ?_)
    intro fits s hpost
    obtain ⟨rfl, hiff⟩ := hpost
    have hlink : wp Fault.Genuine (if fits = true then linkCall request e.program b c f
        else report (.skipping x.name v)) (fun _ t => Evolves e s t ∧
          ∀ f, p.LeadsTo e.program v args f → t.LinkedTo c f) s := by
      split
      · rename_i hfits
        have hruns' : e.MayRun v f := hruns f ((hleads f).2 ⟨rfl, hiff.1 hfits⟩)
        refine wp_mono (linkCall_spec hreq hr hk hc hkey hg hv hruns') ?_
        intro _ t hpost
        obtain ⟨ht, hlinked⟩ := hpost
        refine ⟨ht, fun f' hf' => ?_⟩
        rw [((hleads f').1 hf').1]
        exact hlinked
      · rename_i hno
        refine wp_mono (Evolving.report _ s hr) fun _ t ht => ⟨ht, fun f' hf' => ?_⟩
        -- nothing is led to where the call does not fit
        exact absurd (hiff.2 ((hleads f').1 hf').2) hno
    exact wp_ite (wp_bind hlink fun _ t ht => wp_pure ht)
  | none =>
    refine wp_ask (fun x _ => ?_) nofun
    split
    · exact wp_throw nofun
    · refine wp_pure ⟨.refl e r, ?_⟩
      intro f hpost
      obtain ⟨_, hf, _⟩ := hpost
      cases hnames.inj hf

/-- A call through a pointer is linked to all that its pointees lead to. -/
theorem visitIndirectCall_spec {args : List ValueId} {fn : FunctionId} {v callee : ValueId}
    {b : BlockId} (hreq : Requests e k request) (hr : r.Orderly e.program)
    (hk : r.pending e.program < k) (hc : r.IsCall e.program c h args)
    (hkey : r.Keyed c (.value v)) (hh : r.Hosts h fn) (hv : e.program.InBody fn v)
    (hcall : e.program.IsCallOf v callee args) (hname : e.program.Names callee none) :
    wp Fault.Genuine (visitIndirectCall request e h b c v callee args) (fun _ s => Evolves e r s ∧
      ∀ pointsTo, e.pointsTo? = some pointsTo → ∀ p ∈ pointsTo e.program callee, ∀ f,
        p.LeadsTo e.program v args f → s.LinkedTo c f) r := by
  unfold visitIndirectCall
  cases hpoints : e.pointsTo? with
  | none => exact wp_mono (Evolving.report _ r hr) fun _ s hs => ⟨hs, nofun⟩
  | some pointsTo =>
    refine wp_bind (wp_forIn (fun done _ s => Evolves e r s ∧ ∀ p ∈ done, ∀ f,
      p.LeadsTo e.program v args f → s.LinkedTo c f) ⟨.refl e r, nofun⟩ ?_) ?_
    · intro done p rest isResolved s hl hpost
      obtain ⟨hs, hdone⟩ := hpost
      have hp : p ∈ pointsTo e.program callee := mem_of_split hl
      have hruns : ∀ f, p.LeadsTo e.program v args f → e.MayRun v f :=
        fun f hf => .pointed hcall hname hpoints hp hf
      refine wp_bind (visitPointee_spec hreq (hs.orderly hr)
        (Nat.lt_of_le_of_lt (pending_mono hs.grows) hk) (hc.grows hs.grows)
        (hkey.grows hs.grows) (hh.grows hs.grows) hv hruns) ?_
      intro isLinked t hpost
      obtain ⟨ht, hlinked⟩ := hpost
      refine wp_pure ⟨_, rfl, hs.trans ht, fun p' hp' => ?_⟩
      -- what was linked before is linked still
      rcases List.mem_append.1 hp' with hp' | hp'
      · exact fun f hf => (hdone p' hp' f hf).grows ht.grows
      · rw [List.mem_singleton.1 hp']
        exact hlinked
    · intro isResolved s hpost
      obtain ⟨hs, hdone⟩ := hpost
      have hall : ∀ t, Evolves e s t → ∀ pointsTo', some pointsTo = some pointsTo' →
          ∀ p ∈ pointsTo' e.program callee, ∀ f, p.LeadsTo e.program v args f → t.LinkedTo c f := by
        intro t ht _ hq p hp f hf
        obtain ⟨⟩ := hq
        exact (hdone p hp f hf).grows ht.grows
      cases isResolved with
      | true => exact wp_pure ⟨hs, hall s (.refl e s)⟩
      | false =>
        exact wp_mono (Evolving.report _ s (hs.orderly hr))
          fun _ t ht => ⟨hs.trans ht, hall t ht⟩

/-- The node is indexed in the graph under the key. -/
def Indexed (r : Registry) (g : GraphId) (key : NodeKey) (n : NodeId) : Prop :=
  ∃ x y, r.node? n = some x ∧ x.key = key ∧ x.graph? = some g ∧ r.graph? g = some y ∧
    y.index.get? key = some n

theorem Indexed.grows {s : Registry} {key : NodeKey} {n : NodeId} (hg : r.Grows s)
    (h : Indexed r g key n) : Indexed s g key n := by
  obtain ⟨x, y, hx, hk, hxg, hy, hi⟩ := h
  obtain ⟨x', hx', hxx⟩ := hg.node n x hx
  obtain ⟨y', hy', hyy⟩ := hg.graph g y hy
  exact ⟨x', y', hx', hxx.key.trans hk, hxx.graph?.trans hxg, hy', hyy.index key n hi⟩

/-- The node of a call is listed as one. -/
theorem enlist_spec {callee : ValueId} {v : ValueId} {args : List ValueId}
    (hr : r.Orderly e.program) (hn : Indexed r g (.value v) c)
    (hcall : e.program.IsCallOf v callee args) :
    wp Fault.Genuine (updateGraph g fun y => { y with callNodes := y.callNodes.insert c })
      (fun _ s => Evolves e r s ∧ s.IsCall e.program c g args ∧ s.Keyed c (.value v)) r := by
  refine wp_last (wp_updateGraph fun _ _ => ?_)
  obtain ⟨x, y, hx, hk, hxg, hy, hi⟩ := hn
  obtain ⟨i, hinstr, hop⟩ := hcall
  refine wp_pure ⟨?_, ?_, x, by simpa using hx, hk⟩
  · refine .dress hr g (fun _ => ⟨rfl, rfl, rfl, rfl, rfl, rfl, fun _ h => ?_⟩)
      fun z hz hshaped => ?_
    · exact OrderedSet.mem_insert.2 (Or.inl h)
    · rw [hy] at hz
      cases hz
      exact hshaped.enlist hi ⟨i, hinstr, hop⟩
  · refine ⟨x, { y with callNodes := y.callNodes.insert c }, callee, by simpa using hx, hxg, ?_, ?_,
      ?_, OrderedSet.mem_insert.2 (Or.inr rfl)⟩
    · rw [graph?_reviseGraph, if_pos rfl, hy]
      rfl
    · rw [hk]
      exact hi
    · rw [hk, Module.operation?_of_instruction? hinstr, hop]

/-- **Calls.** A call of an allocating function is a parameter of its graph afterwards, and every
call is listed, linked to all that it may run, and gathered if it has to be. -/
theorem visitCall_spec {args : List ValueId} {fn : FunctionId} {v callee : ValueId} {b : BlockId}
    (hreq : Requests e k request) (hr : r.Orderly e.program) (hk : r.pending e.program < k)
    (hn : Indexed r g (.value v) c) (hg : r.Hosts g fn) (hv : e.program.InBody fn v)
    (hcall : e.program.IsCallOf v callee args) :
    wp Fault.Genuine (visitCall request e g b c v callee args) (fun _ s => Evolves e r s ∧
      (e.IsAllocation v → s.HasFormal g v) ∧ s.Answers e g v) r := by
  unfold visitCall
  refine wp_bind (enlist_spec hr hn hcall) ?_
  intro _ r₁ hpost
  obtain ⟨h₁, hc₁, hkey₁⟩ := hpost
  have hr₁ := h₁.orderly hr
  have hk₁ : r₁.pending e.program < k := Nat.lt_of_le_of_lt (pending_mono h₁.grows) hk
  have hg₁ := hg.grows h₁.grows
  -- what is left to show is that the call is linked to all that it may run, and gathered
  have hanswers : ∀ s, Evolves e r₁ s → (∀ f, e.MayRun v f → s.LinkedTo c f) →
      e.program.Tells v → (e.Gathers v → c ∈ s.gathered) → s.Answers e g v := by
    intro s hs hlinked htells hgathered
    exact ⟨c, ⟨args, hc₁.grows hs.grows⟩, hkey₁.grows hs.grows, hlinked, htells, hgathered⟩
  refine wp_ask (fun t ht => wp_ask (fun f? hf? => ?_) nofun) nofun
  have hname : e.program.Names callee f? := ⟨t, ht, hf?⟩
  have htells : (∀ f ∈ f?, ∃ x, e.program.function f = .ok x) → e.program.Tells v := by
    intro hf callee' args' hcall'
    obtain ⟨rfl, rfl⟩ := hcall.inj hcall'
    exact ⟨f?, hname, hf⟩
  cases f? with
  | some f =>
    refine wp_mono (visitDirectCall_spec hreq hr₁ hk₁ hc₁ hkey₁ hg₁ hv hcall hname) ?_
    intro _ s hpost
    obtain ⟨hs, x, hx, halloc, hlinked, hgathered⟩ := hpost
    refine ⟨h₁.trans hs, ?_, hanswers s hs ?_ (htells fun f' hf' => ?_) ?_⟩
    · rwa [Setup.isAllocation_iff hcall hname hx]
    · intro f' hruns
      obtain ⟨rfl, hdef⟩ := (Setup.mayRun_iff_of_some hcall hname hx).1 hruns
      exact hlinked hdef
    · cases hf'
      exact ⟨x, hx⟩
    · rwa [Setup.gathers_iff hcall hname hx]
  | none =>
    refine wp_mono (visitIndirectCall_spec hreq hr₁ hk₁ hc₁ hkey₁ hg₁ hv hcall hname) ?_
    intro _ s hpost
    obtain ⟨hs, hlinked⟩ := hpost
    refine ⟨h₁.trans hs, ?_, hanswers s hs ?_ (htells nofun) ?_⟩
    · intro halloc
      exact absurd halloc (Setup.not_isAllocation_of_none hcall hname)
    · intro f' hruns
      obtain ⟨pointsTo, hpoints, p, hp, hleads⟩ := (Setup.mayRun_iff_of_none hcall hname).1 hruns
      exact hlinked pointsTo hpoints p hp f' hleads
    · intro hgathers
      exact absurd hgathers (Setup.not_gathers_of_none hcall hname)

end Work

end Sdg
