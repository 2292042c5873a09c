import Sdg.Proofs.Building.Linking
import Sdg.Proofs.Safety.Parameters

/-!
# Calls without faults

Linking a call changes the body of no graph, and the build of the callee on the way completes the
bodies that it makes. What a call asks of a closed module is answered, the graph of the callee has
its entry, even if it is still being built, and the call is recorded in a unit that is there.

Main results:

* `linkCall_spares` — a call can be linked to the graph of every function that it may run;
* `visitCall_spares` — a call can be visited, or the setup is to blame.
-/

namespace Sdg

namespace Work

open Registry

variable {e : Setup} {r s : Registry} {c n : NodeId} {g h : GraphId} {f fn : FunctionId} {k : Nat}
  {v callee : ValueId} {b : BlockId} {args : List ValueId} {request : FunctionId → Work GraphId}

/-- What else `request` has to do where fewer than `k` functions have no graph: functions with a
body get a graph, and the bodies of old graphs are spared. -/
def Delivers (e : Setup) (k : Nat) (request : FunctionId → Work GraphId) : Prop :=
  ∀ f r, r.Fit e.program → r.pending e.program < k → (e.Sane → e.program.Defines f) →
    wp e.Blames (request f) (fun _ s => Advances e.program r s) r

/-- The call `c` in block `b` is being visited for the graph `g` of the function `fn`. It stands for
the value `v`, and fewer than `k` functions have no graph. -/
structure CallVisit (e : Setup) (k : Nat) (g : GraphId) (fn : FunctionId) (b : BlockId) (c : NodeId)
    (v : ValueId) (args : List ValueId) (r : Registry) : Prop where
  fit : r.Fit e.program
  pending : r.pending e.program < k
  call : r.IsCall e.program c g args
  keyed : r.Keyed c (.value v)
  hosts : r.Hosts g fn
  inBody : e.program.InBody fn v
  unit : e.Sane → r.HasUnit g b

/-- It is so after work that is about the body of no graph. -/
theorem CallVisit.spared (h : CallVisit e k g fn b c v args r) (hs : Spares e r s) :
    CallVisit e k g fn b c v args s where
  fit := hs.fit h.fit
  pending := Nat.lt_of_le_of_lt (pending_mono hs.evolves.grows) h.pending
  call := h.call.grows hs.evolves.grows
  keyed := h.keyed.grows hs.evolves.grows
  hosts := h.hosts.grows hs.evolves.grows
  inBody := h.inBody
  unit hsane := (h.unit hsane).advance hs.advances

/-! ## One link -/

theorem addLink_safe {x : Node} {y : Graph} (hx : r.node? c = some x) (hy : r.graph? g = some y) :
    Safe e (addLink c g) r := by
  unfold Safe addLink
  refine wp_node_live hx ?_
  split
  · exact wp_pure trivial
  · unfold putNode
    refine wp_modifyRegistry ?_
    rw [reviseNode_eq hx fun x => { x with callees := x.callees.insert g }]
    have hy' : (r.reviseNode c fun x => { x with callees := x.callees.insert g }).graph? g =
        some y := by
      simpa using hy
    exact wp_updateGraph_live hy' (wp_pure trivial)

/-- A new link spares all bodies. -/
theorem advances_link {m : Module} (hg : r.Grows (r.link c g)) : Advances m r (r.link c g) where
  grows := hg
  spares k _ y hy := by
    rw [graph?_link, hy]
    split
    · exact ⟨_, rfl, .of_units rfl rfl rfl rfl rfl rfl rfl⟩
    · exact ⟨y, rfl, .refl y⟩
  whole k _ y' hn hy' := by
    rw [graph?_link] at hy'
    split at hy' <;> simp [hn] at hy'

/-- A link can be settled. -/
theorem settle_advances (hr : r.Fit e.program) (hc : r.IsCall e.program c h args)
    (hlink : r.Calls c g) :
    wp e.Blames (absorb e.program h g >>= fun _ => bindActuals e.program c g)
      (fun _ s => Advances e.program r s) r := by
  obtain ⟨_, y, _, _, _, hy, _⟩ := id hc
  have hl : r.Links h g := ⟨c, hc.ownedBy, hlink⟩
  refine wp_bind ((absorb_safe hr hy hl).and (absorb_spec hr.orderly hl)) ?_
  intro _ s hpost
  obtain ⟨hs, _⟩ := hpost
  have hc' := hc.grows hs.spreads.grows
  have hlink' := hlink.grows hs.spreads.grows
  refine wp_mono ((bindActuals_safe (hr.spreads hs.spreads) hc' hlink').and
    (bindActuals_spec hc' hlink')) ?_
  intro _ t hpost
  exact .of_spreads (hs.spreads.trans hpost.1.spreads)

/-- A linked call can be given its edges and its bindings. -/
theorem settleLink_advances (hr : r.Fit e.program) (hc : r.IsCall e.program c g args)
    (hlink : r.Calls c h) (hunit : e.Sane → r.HasUnit g b) :
    wp e.Blames (settleLink e.program b c g h) (fun _ s => Advances e.program r s) r := by
  unfold settleLink
  obtain ⟨x, z, _, hx, _, hz, _⟩ := id hc
  obtain ⟨y, hy, _⟩ := (hr.orderly.mirrored.calls c h).1 hlink
  obtain ⟨en, xen, hen, hxen⟩ := hr.exists_entry hy
  refine wp_entry_live hy hen (wp_addControl_live hx hxen ?_)
  have hcontrol : Spares e r (r.control c en) := .control hr.orderly hx hxen
  have hz' : (r.control c en).graph? g = some z := by simpa using hz
  have hc' := hc.grows hcontrol.evolves.grows
  have hsite := evolves_site (k := .block b) (hcontrol.fit hr).orderly hc'
  have hspares := hcontrol.trans
    ⟨hsite, .reviseGraph hsite.grows fun _ y _ => .modifyUnit y _ fun _ => rfl⟩
  refine wp_updateUnit_live hz' (fun u _ => ?_) (blames_missingUnit fun hsane => ?_)
  · refine wp_mono (settle_advances (hspares.fit hr) (hc'.grows hsite.grows)
      (hlink.grows hspares.evolves.grows)) ?_
    intro _ s hs
    exact hspares.advances.trans hs
  · exact (hunit hsane).exists_unit hz

section

variable (hreq : Requests e k request) (hdel : Delivers e k request)

include hreq hdel

/-- **Linking.** A call can be linked to the graph of every function that it may run. -/
theorem linkCall_spares (hvisit : CallVisit e k g fn b c v args r) (hruns : e.MayRun v f) :
    wp e.Blames (linkCall request e.program b c f) (fun _ s => Spares e r s) r := by
  suffices hmain : wp e.Blames (linkCall request e.program b c f)
      (fun _ s => Advances e.program r s) r from
    wp_mono (wp_and (linkCall_spec hreq hvisit.fit.orderly hvisit.pending hvisit.call hvisit.keyed
      hvisit.hosts hvisit.inBody hruns) hmain) fun _ s hpost => ⟨hpost.1.1, hpost.2⟩
  unfold linkCall
  refine wp_checkCall_live hvisit.call (wp_owner_live hvisit.call.ownedBy ?_)
  refine wp_bind (wp_and (hreq f r hvisit.fit.orderly hvisit.pending)
    (hdel f r hvisit.fit hvisit.pending fun _ => hruns.defines)) ?_
  intro h r₁ hpost
  obtain ⟨⟨hasked, hh₁⟩, hadv₁⟩ := hpost
  have hr₁ := hvisit.fit.spared hasked.changes hadv₁
  have hc₁ := hvisit.call.grows hasked.grows
  obtain ⟨x, _, _, hx, _⟩ := id hc₁
  obtain ⟨y, hy, hyf⟩ := id hh₁
  refine wp_bind ((addLink_safe hx hy).and addLink_spec) ?_
  intro isNew r₂ hpost
  obtain ⟨hold, hnew⟩ := hpost
  -- the link was there, or it is new
  cases isNew with
  | false =>
    obtain ⟨rfl, hlink⟩ := hold rfl
    refine wp_mono (settleLink_advances hr₁ hc₁ hlink fun hsane =>
      (hvisit.unit hsane).advance hadv₁) ?_
    intro _ s hs
    exact hadv₁.trans hs
  | true =>
    obtain ⟨rfl, hn, _⟩ := hnew rfl
    have hmay : r₁.MayCall e c g h := by
      obtain ⟨x, hx, hxv⟩ := hvisit.keyed.grows hasked.grows
      obtain ⟨z, hz, rfl⟩ := hvisit.hosts.grows hasked.grows
      exact ⟨v, x, z, y, hx, hxv, hz, hy, hvisit.inBody, by rwa [hyf]⟩
    have hchange : Change e r₁ (r₁.link c h) := .link hc₁ hy hn hmay
    have hlinked := advances_link (m := e.program) hchange.grows
    have hadv₂ := hadv₁.trans hlinked
    obtain ⟨x', hx', _⟩ := hruns.defines
    refine wp_ask_sane (fun _ => ⟨x', hx'⟩) fun _ _ => wp_report ?_
    refine wp_mono (settleLink_advances (hr₁.spared (.single hchange) hlinked)
      (hc₁.grows hchange.grows) ((calls_link hx c h).2 (Or.inr ⟨rfl, rfl⟩))
      fun hsane => (hvisit.unit hsane).advance hadv₂) ?_
    intro _ s hs
    exact hadv₂.trans hs

/-! ## Calls -/

/-- A call of a named function can be visited. -/
theorem visitDirectCall_spares (hvisit : CallVisit e k g fn b c v args r)
    (hcall : e.program.IsCallOf v callee args) (hname : e.program.Names callee (some f)) :
    wp e.Blames (visitDirectCall request e g b c v f) (fun _ s => Spares e r s) r := by
  unfold visitDirectCall
  refine wp_ask_sane (fun hsane => ?_) fun x hx => ?_
  · obtain ⟨t, _, hf⟩ := hname
    exact hsane.program.closed.function_of_asFunction? hf
  have hgather : wp e.Blames (if e.settings.gathered = some x.name then
      modifyRegistry fun r => { r with gathered := r.gathered.insert c } else pure ())
        (fun _ s => Spares e r s) r := by
    refine wp_mono (gather_spec hvisit.fit.orderly hvisit.call hvisit.keyed hcall hname hx) ?_
    intro _ s hpost
    obtain ⟨hev, hgraph, _⟩ := hpost
    exact ⟨hev, .of_graphs hev.grows fun g => congrFun hgraph g⟩
  have hlink : ∀ s, Spares e r s → wp e.Blames
      (if x.isDefined = true then linkCall request e.program b c f else pure ())
        (fun _ t => Spares e s t) s := by
    intro s hs
    split
    · rename_i hdef
      exact linkCall_spares hreq hdel (hvisit.spared hs) (.named hcall hname hx hdef)
    · exact wp_pure (.refl e s)
  -- the call is gathered, linked, and taken for an allocation, each if asked to
  refine wp_when (wp_bind hgather ?_)
  intro _ r₁ h₁
  refine wp_when (wp_bind (hlink r₁ h₁) ?_)
  intro _ r₂ h₂
  have hs := h₁.trans h₂
  split
  · rename_i halloc
    have hvisit₂ := hvisit.spared hs
    have hreason : ∀ y, r₂.graph? g = some y → Reason e r₂ g y (.own v) := by
      intro y hy
      have hy' := hvisit₂.hosts.function_eq hy
      exact .allocated (hy' ▸ ⟨hvisit.inBody, callee, args, f, x, hcall, hname, hx, halloc⟩)
    obtain ⟨y, hy, _⟩ := hvisit₂.hosts
    refine wp_report (wp_mono ((discoverHeap_safe hvisit₂.fit hy hreason).and
      (discoverHeap_spec hvisit₂.fit.orderly hreason)) ?_)
    intro _ s hpost
    exact hs.trans (.of_settles hvisit₂.fit hpost.1)
  · exact wp_pure hs

/-- A call can be linked to what a pointee leads to. -/
theorem visitPointee_spares {p : Pointee} (hvisit : CallVisit e k g fn b c v args r)
    (hcall : e.program.IsCallOf v callee args)
    (hruns : ∀ f, p.LeadsTo e.program v args f → e.MayRun v f)
    (hsafe : e.Sane → p.isValid = true → ∃ x, e.program.value p.target = .ok x ∧
      ∀ a, x.kind = .aliasOf a → ∃ f, e.program.Names p.target (some f)) :
    wp e.Blames (visitPointee request e.program b c v args p) (fun _ s => Spares e r s) r := by
  unfold visitPointee
  split
  · exact wp_pure (.refl e r)
  rename_i hinvalid
  have hvalid : p.isValid = true := by simpa using hinvalid
  refine wp_ask_both_sane (fun hsane => ?_) fun t f? ht hf? => ?_
  · obtain ⟨x, hx, _⟩ := hsafe hsane hvalid
    exact hsane.program.closed.exists_names hx
  cases f? with
  | none =>
    refine wp_ask_sane (fun hsane => ?_) fun x hx => ?_
    · obtain ⟨x, hx, _⟩ := hsafe hsane hvalid
      exact ⟨x, hx⟩
    split
    · rename_i a hkind
      -- another name of what is no function is none of those that a safe oracle gives
      refine wp_throw_sane nofun fun hsane => ?_
      obtain ⟨x', hx', halias⟩ := hsafe hsane hvalid
      rw [hx] at hx'
      cases hx'
      obtain ⟨f, hf⟩ := halias a hkind
      cases hf.inj ⟨t, ht, hf?⟩
    · exact wp_pure (.refl e r)
  | some f =>
    refine wp_ask_sane (fun hsane => hsane.program.closed.function_of_asFunction? hf?)
      fun x hx => ?_
    refine wp_ite (wp_bind (wp_fits fun _ => blames_of_answered fun hsane => ?_) ?_)
    · obtain ⟨i, hi, hop⟩ := hcall
      exact hsane.program.closed.exists_callFits hx hi hop
    intro fits s hpost
    obtain ⟨rfl, hiff⟩ := hpost
    have hlink : wp e.Blames (if fits = true then linkCall request e.program b c f
        else report (.skipping x.name v)) (fun _ t => Spares e s t) s := by
      split
      · rename_i hfit
        obtain ⟨hdef, hcf⟩ := hiff.1 hfit
        exact linkCall_spares hreq hdel hvisit
          (hruns f ⟨hvalid, ⟨t, ht, hf?⟩, x, hx, hdef, hcf⟩)
      · exact wp_last (wp_report (wp_pure (.refl e s)))
    exact wp_ite (wp_bind hlink fun _ t ht => wp_pure ht)

/-- A call through a pointer can be linked to all that its pointees lead to. -/
theorem visitIndirectCall_spares (hvisit : CallVisit e k g fn b c v args r)
    (hcall : e.program.IsCallOf v callee args) (hname : e.program.Names callee none) :
    wp e.Blames (visitIndirectCall request e g b c v callee args)
      (fun _ s => Spares e r s) r := by
  unfold visitIndirectCall
  cases hpoints : e.pointsTo? with
  | none => exact wp_last (wp_report (wp_pure (.refl e r)))
  | some pointsTo =>
    refine wp_bind (wp_forIn (fun _ _ s => Spares e r s) (.refl e r) ?_) ?_
    · intro done p rest isResolved s hl hs
      have hp : p ∈ pointsTo e.program callee := mem_of_split hl
      refine wp_bind (visitPointee_spares hreq hdel (hvisit.spared hs) hcall
        (fun f hf => .pointed hcall hname hpoints hp hf)
        fun hsane hvalid => hsane.pointsTo pointsTo hpoints callee p hp hvalid) ?_
      intro isLinked t ht
      exact wp_pure ⟨_, rfl, hs.trans ht⟩
    · intro isResolved s hs
      cases isResolved with
      | true => exact wp_pure hs
      | false => exact wp_last (wp_report (wp_pure hs))

/-- **Calls.** A call can be visited, or the setup is to blame. -/
theorem visitCall_spares (hr : r.Fit e.program) (hk : r.pending e.program < k)
    (hn : Indexed r g (.value v) c) (hg : r.Hosts g fn) (hv : e.program.InBody fn v)
    (hcall : e.program.IsCallOf v callee args) (hunit : e.Sane → r.HasUnit g b) :
    wp e.Blames (visitCall request e g b c v callee args) (fun _ s => Spares e r s) r := by
  obtain ⟨y, hy, _⟩ := id hg
  have henlist : wp e.Blames (updateGraph g fun y => { y with callNodes := y.callNodes.insert c })
      (fun _ s => s = r.reviseGraph g fun y => { y with callNodes := y.callNodes.insert c }) r :=
    wp_last (wp_updateGraph_live hy (wp_pure rfl))
  unfold visitCall
  refine wp_bind (wp_and (enlist_spec hr.orderly hn hcall) henlist) ?_
  intro _ r₁ hpost
  obtain ⟨⟨h₁, hc₁, hkey₁⟩, rfl⟩ := hpost
  have hs₁ : Spares e r (r.reviseGraph g fun y =>
      { y with callNodes := y.callNodes.insert c }) :=
    ⟨h₁, .reviseGraph h₁.grows fun _ y _ => .of_units rfl rfl rfl rfl rfl rfl rfl⟩
  have hvisit : CallVisit e k g fn b c v args _ :=
    ⟨hs₁.fit hr, Nat.lt_of_le_of_lt (pending_mono h₁.grows) hk, hc₁, hkey₁, hg.grows h₁.grows, hv,
      fun hsane => (hunit hsane).advance hs₁.advances⟩
  refine wp_ask_both_sane (fun hsane => ?_) fun t f? ht hf? => ?_
  · obtain ⟨i, hi, hop⟩ := hcall
    obtain ⟨x, hx⟩ := hsane.program.closed.operand_of_mem (w := callee) hi
      (by rw [hop]; exact List.mem_cons_self)
    exact hsane.program.closed.exists_names hx
  have hname : e.program.Names callee f? := ⟨t, ht, hf?⟩
  cases f? with
  | some f =>
    exact wp_mono (visitDirectCall_spares hreq hdel hvisit hcall hname) fun _ _ => hs₁.trans
  | none =>
    exact wp_mono (visitIndirectCall_spares hreq hdel hvisit hcall hname) fun _ _ => hs₁.trans

end

end Work

end Sdg
