import Sdg.Proofs.Portrait.Bodies

/-!
# Drawing edges between units

Once all blocks of a body have their units, the edges to successors come, and then those of control
dependence. Each pass adds just the edges that it is about, and phis change nothing between units.

Main results:

* `Work.addAllSuccessors_comes` — each unit gets its successors, labelled by position;
* `Work.addControls_comes` — units that decide control their scopes and themselves, as asked for.
-/

namespace Sdg

/-- The edges from some blocks to their successors, labelled by position. -/
def Module.Flows (m : Module) (l : List BlockId) (a c : BlockKey) (i : Nat) : Prop :=
  ∃ b ∈ l, ∃ ss d, m.successors b = .ok ss ∧ a = .block b ∧ ss[i]? = some d ∧ c = .block d

namespace Stage

/-- The units that control others by their scopes. -/
def Scopes (e : Setup) (f : FunctionId) (t : Stage) (a c : BlockKey) : Prop :=
  ∃ b d scope, a = .block b ∧ c = .block d ∧ t.Branches a ∧ e.scopes e.program f = .ok scope ∧
    d ∈ scope b

/-- The units that control themselves. -/
def Turns (t : Stage) (a c : BlockKey) : Prop :=
  ∃ b, a = .block b ∧ c = a ∧ t.Branches a ∧ t.Loops a

end Stage

namespace Registry

variable {e : Setup} {r s : Registry} {g : GraphId} {t : Stage} {x : Function} {f : FunctionId}

/-- Which edges there are may be told in other words. -/
theorem Comes.congr_leads {L L' : BlockKey → BlockKey → Nat → Prop}
    (h : Comes e g x f r { t with leads := L } s) (hL : ∀ a c l, L a c l ↔ L' a c l) :
    Comes e g x f r { t with leads := L' } s := by
  have heq : L = L' := by
    funext a c l
    exact propext (hL a c l)
  rwa [← heq]

theorem Comes.congr_governs {C C' : BlockKey → BlockKey → Prop}
    (h : Comes e g x f r { t with governs := C } s) (hC : ∀ a c, C a c ↔ C' a c) :
    Comes e g x f r { t with governs := C' } s := by
  have heq : C = C' := by
    funext a c
    exact propext (hC a c)
  rwa [← heq]

end Registry

namespace Work

open Registry

variable {e : Setup} {r : Registry} {g : GraphId} {n : NodeId} {t : Stage} {x : Function}
  {f : FunctionId} {b : BlockId}

/-! ## Successors -/

/-- The edges from a block to its successors, of which there are no more than labels. -/
theorem addSuccessors_comes (h : r.Shows g x f t) :
    wp Fault.Any (addSuccessors e.program g b) (fun _ s => ∃ ss,
      e.program.successors b = .ok ss ∧ ss.length ≤ exitLabel ∧
        Comes e g x f r { t with
          leads := fun a c l =>
            t.leads a c l ∨ a = .block b ∧ ∃ d, ss[l]? = some d ∧ c = .block d } s) r := by
  unfold addSuccessors
  refine wp_ask (fun ss hss => ?_) fun _ _ => trivial
  -- so far the edges are those of the successors that were visited, with labels below the limit
  refine wp_bind (wp_forIn (fun done _ s => (∀ p ∈ done, p.2 < exitLabel) ∧
    Comes e g x f r { t with
      leads := fun a c l =>
        t.leads a c l ∨ a = .block b ∧ ∃ d, (d, l) ∈ done ∧ c = .block d } s) ⟨nofun, ?_⟩ ?_) ?_
  · exact (Comes.refl h).congr_leads fun a c l => by simp
  · intro done p rest _ s _ hs
    obtain ⟨hlt, hs⟩ := hs
    obtain ⟨d, position⟩ := p
    refine wp_when (wp_bind (P := fun _ s' => s' = s ∧ position < exitLabel) ?_ ?_)
    · split
      · exact wp_throw trivial
      · exact wp_pure ⟨rfl, Nat.lt_of_not_le ‹_›⟩
    intro _ s' hp
    obtain ⟨rfl, hposition⟩ := hp
    refine wp_graph (fun y hy => wp_require (fun _ _ => ?_) fun _ => trivial) fun _ => trivial
    refine wp_bind (addUnitEdge_comes (e := e) hs.shows) fun _ u hu => wp_pure ⟨_, rfl, ?_, ?_⟩
    · intro p hp
      rcases List.mem_append.1 hp with hp | hp
      · exact hlt p hp
      · rw [List.mem_singleton.1 hp]
        exact hposition
    · refine (hs.trans hu).congr_leads fun a c l => ?_
      simp only [List.mem_append, List.mem_singleton, Prod.mk.injEq]
      constructor
      · rintro ((hl | ⟨ha, d', hd, hc⟩) | ⟨ha, hc, hl⟩)
        · exact Or.inl hl
        · exact Or.inr ⟨ha, d', Or.inl hd, hc⟩
        · exact Or.inr ⟨ha, d, Or.inr ⟨rfl, hl⟩, hc⟩
      · rintro (hl | ⟨ha, d', hd | ⟨rfl, hl⟩, hc⟩)
        · exact Or.inl (Or.inl hl)
        · exact Or.inl (Or.inr ⟨ha, d', hd, hc⟩)
        · exact Or.inr ⟨ha, hc, hl⟩
  · intro _ s hs
    obtain ⟨hlt, hs⟩ := hs
    refine wp_pure ⟨ss, hss, ?_, hs.congr_leads fun a c l => ?_⟩
    · -- the successor at the place of the label of the exit would have been too many
      by_contra hlong
      have hget : ss[exitLabel]? = some ss[exitLabel] := List.getElem?_eq_getElem (by omega)
      have hbelow := hlt (ss[exitLabel], exitLabel) (List.mem_zipIdx_iff_getElem?.2 hget)
      exact Nat.lt_irrefl _ hbelow
    · simp only [List.mem_zipIdx_iff_getElem?]

/-- **Successors.** Each unit gets its successors, labelled by position. -/
theorem addAllSuccessors_comes {l : List BlockId} (h : r.Shows g x f t) :
    wp Fault.Any (forIn l PUnit.unit fun b _ => do
      addSuccessors e.program g b
      pure (.yield PUnit.unit)) (fun _ s =>
        (∀ b ∈ l, ∃ ss, e.program.successors b = .ok ss ∧ ss.length ≤ exitLabel) ∧
          Comes e g x f r { t with
            leads := fun a c i => t.leads a c i ∨ e.program.Flows l a c i } s) r := by
  -- so far the edges are those of the blocks that were visited
  refine wp_forIn (fun done _ s =>
    (∀ b ∈ done, ∃ ss, e.program.successors b = .ok ss ∧ ss.length ≤ exitLabel) ∧
      Comes e g x f r { t with
        leads := fun a c i => t.leads a c i ∨ e.program.Flows done a c i } s)
    ⟨nofun, (Comes.refl h).congr_leads fun a c i => by simp [Module.Flows]⟩ ?_
  intro done b rest _ s _ hs
  obtain ⟨hfew, hs⟩ := hs
  refine wp_bind (addSuccessors_comes (e := e) hs.shows) fun _ u hu => ?_
  obtain ⟨ss, hss, hlength, hu⟩ := hu
  refine wp_pure ⟨_, rfl, fun d hd => ?_, (hs.trans hu).congr_leads fun a c i => ?_⟩
  · rcases List.mem_append.1 hd with hd | hd
    · exact hfew d hd
    · rw [List.mem_singleton.1 hd]
      exact ⟨ss, hss, hlength⟩
  · simp only [Module.Flows, List.mem_append, List.mem_singleton]
    constructor
    · rintro ((hl | ⟨d, hd, hp⟩) | ⟨ha, d, hd, hc⟩)
      · exact Or.inl hl
      · exact Or.inr ⟨d, Or.inl hd, hp⟩
      · exact Or.inr ⟨b, Or.inr rfl, ss, d, hss, ha, hd, hc⟩
    · rintro (hl | ⟨d, hd | rfl, ss', d', hss', ha, hd', hc⟩)
      · exact Or.inl (Or.inl hl)
      · exact Or.inl (Or.inr ⟨d, hd, ss', d', hss', ha, hd', hc⟩)
      · rw [hss] at hss'
        cases hss'
        exact Or.inr ⟨ha, d', hd', hc⟩

/-! ## Deciders -/

/-- The units that decide where control goes are those that branch. -/
theorem deciders_comes (h : r.Shows g x f t) :
    wp Fault.Any (deciders g) (fun us s => s = r ∧ (∀ p ∈ us, p.2.key = .block p.1 ∧
      t.Branches (.block p.1) ∧ (p.2.hasSelfLoop = true ↔ t.Loops (.block p.1))) ∧
        ∀ b, t.Branches (.block b) → ∃ u, (b, u) ∈ us) r := by
  unfold deciders
  refine wp_graph (fun y hy => wp_pure ⟨rfl, fun p hp => ?_, fun b hb => ?_⟩) fun _ => trivial
  · obtain ⟨hs, _⟩ := h.2 y hy
    obtain ⟨hp, hdec⟩ := List.mem_filter.1 hp
    have hu : y.unit? (.block p.1) = some p.2 := OrderedMap.mem_entries.1 hp
    exact ⟨hs.keyed _ _ hu, (hs.decides_iff hu).1 hdec, hs.hasSelfLoop_iff hu⟩
  · obtain ⟨hs, _⟩ := h.2 y hy
    -- a unit that has an edge is there
    have hleads := hb
    obtain ⟨c, l, _, _, hl, _⟩ := hleads
    obtain ⟨u, hu, _⟩ := (hs.leads _ c l).2 hl
    exact ⟨u, List.mem_filter.2 ⟨OrderedMap.mem_entries.2 hu, (hs.decides_iff hu).2 hb⟩⟩

/-- **Scopes.** Units that decide control the units in their scope. -/
theorem addScopeControls_comes (h : r.Shows g x f t) :
    wp Fault.Any (addScopeControls e g) (fun _ s => Comes e g x f r
      { t with governs := fun a c => t.governs a c ∨ t.Scopes e f a c } s) r := by
  unfold addScopeControls
  refine wp_graph (fun y hy => ?_) fun _ => trivial
  obtain ⟨hshows, _⟩ := h.2 y hy
  obtain rfl := hshows.function
  refine wp_bind (deciders_comes h) fun us s hus => ?_
  obtain ⟨rfl, hdec, hall⟩ := hus
  split
  · rename_i hempty
    -- where nothing decides there are no scopes
    refine wp_pure ((Comes.refl h).congr_governs fun a c => (or_iff_left ?_).symm)
    rintro ⟨b, _, _, rfl, _, hb, _⟩
    obtain ⟨u, hu⟩ := hall b hb
    rw [List.isEmpty_iff.1 hempty] at hu
    cases hu
  refine wp_ask (fun scope hscope => ?_) fun _ _ => trivial
  -- the outer loop goes over the units that decide, the inner one over the scope of one
  refine wp_bind (wp_forIn (fun done _ s' => Comes e g x y.function s { t with
    governs := fun a c =>
      t.governs a c ∨ ∃ p ∈ done, ∃ d ∈ scope p.1, a = .block p.1 ∧ c = .block d } s')
    ((Comes.refl h).congr_governs fun a c => by simp) ?_) fun _ s' hs' => ?_
  · intro done p rest _ s' _ hs'
    refine wp_bind (wp_forIn (fun done' _ u => Comes e g x y.function s { t with
      governs := fun a c =>
        (t.governs a c ∨ ∃ p ∈ done, ∃ d ∈ scope p.1, a = .block p.1 ∧ c = .block d) ∨
          ∃ d ∈ done', a = .block p.1 ∧ c = .block d } u)
      (hs'.congr_governs fun a c => by simp) ?_) fun _ u hu => wp_pure ⟨_, rfl, ?_⟩
    · intro done' d rest' _ u _ hu
      refine wp_bind (addUnitControl_comes (e := e) hu.shows) fun _ w hw => wp_pure ⟨_, rfl, ?_⟩
      refine (hu.trans hw).congr_governs fun a c => ?_
      simp only [List.mem_append, List.mem_singleton, or_and_right, exists_or, exists_eq_left]
      exact or_assoc
    · refine hu.congr_governs fun a c => ?_
      simp only [List.mem_append, List.mem_singleton, or_and_right, exists_or, exists_eq_left]
      exact or_assoc
  · refine wp_pure (hs'.congr_governs fun a c => or_congr_right ?_)
    constructor
    · rintro ⟨p, hp, d, hd, rfl, rfl⟩
      exact ⟨p.1, d, scope, rfl, rfl, (hdec p hp).2.1, hscope, hd⟩
    · rintro ⟨b, d, scope', rfl, rfl, hb, hscope', hd⟩
      rw [hscope] at hscope'
      cases hscope'
      obtain ⟨u, hu⟩ := hall b hb
      exact ⟨(b, u), hu, d, hd, rfl, rfl⟩

/-- **Loops.** Units that decide and may go back to themselves control themselves. -/
theorem addLoopControls_comes (h : r.Shows g x f t) :
    wp Fault.Any (addLoopControls g) (fun _ s => Comes e g x f r
      { t with governs := fun a c => t.governs a c ∨ t.Turns a c } s) r := by
  unfold addLoopControls
  refine wp_bind (deciders_comes h) fun us s hus => ?_
  obtain ⟨rfl, hdec, hall⟩ := hus
  refine wp_bind (wp_forIn (fun done _ s' => Comes e g x f s { t with
    governs := fun a c => t.governs a c ∨ ∃ p ∈ done, a = p.2.key ∧ c = p.2.key } s')
    ((Comes.refl h).congr_governs fun a c => by simp) ?_) fun _ s' hs' => ?_
  · intro done p rest _ s' _ hs'
    refine wp_bind (addUnitControl_comes (e := e) hs'.shows) fun _ u hu => wp_pure ⟨_, rfl, ?_⟩
    refine (hs'.trans hu).congr_governs fun a c => ?_
    simp only [List.mem_append, List.mem_singleton, or_and_right, exists_or, exists_eq_left]
    exact or_assoc
  · refine wp_pure (hs'.congr_governs fun a c => or_congr_right ?_)
    constructor
    · rintro ⟨p, hp, rfl, rfl⟩
      obtain ⟨hp, hloop⟩ := List.mem_filter.1 hp
      obtain ⟨hkey, hb, hiff⟩ := hdec p hp
      exact ⟨p.1, hkey, rfl, hkey ▸ hb, hkey ▸ hiff.1 hloop⟩
    · rintro ⟨b, rfl, rfl, hb, hloop⟩
      obtain ⟨u, hu⟩ := hall b hb
      obtain ⟨hkey, _, hiff⟩ := hdec (b, u) hu
      exact ⟨(b, u), List.mem_filter.2 ⟨hu, hiff.2 hloop⟩, hkey.symm, hkey.symm⟩

/-! ## All control dependence -/

theorem calm_phiControlsOf {r₀ : Registry} :
    Maintains Fault.Any r₀.Calm (phiControlsOf e.program g b n) := by
  refine .bind (.node trivial) fun z => .bind (.ask fun _ _ => trivial) fun op? => ?_
  split
  · refine .bind (.graph trivial) fun y => .mapM fun _ _ => ?_
    exact .bind (.require fun _ => trivial) fun _ => .pure _
  · exact .pure _

/-- Phis are nodes, so they change nothing between units. -/
theorem calm_addPhiControls {r₀ : Registry} :
    Maintains Fault.Any r₀.Calm (addPhiControls e.program g) := by
  refine .bind (.graph trivial) fun y => .bind (.mapM fun _ _ => ?_) fun edges => ?_
  · exact .bind (.mapM fun _ _ => calm_phiControlsOf) fun _ => .pure _
  · exact .bind (.forIn fun _ _ _ => .bind calm_addControl fun _ => .pure _) fun _ => .pure _

/-- **Control dependence.** Units that decide control their scopes and themselves, as the settings
ask for. -/
theorem addControls_comes (h : r.Shows g x f t) :
    wp Fault.Any (addControls e g) (fun _ s => Comes e g x f r { t with
      governs := fun a c =>
        t.governs a c ∨ e.settings.controlScopes = true ∧ t.Scopes e f a c ∨
          e.settings.selfLoops = true ∧ t.Turns a c } s) r := by
  unfold addControls
  refine wp_when (wp_bind (P := fun _ s => Comes e g x f r { t with
    governs := fun a c =>
      t.governs a c ∨ e.settings.controlScopes = true ∧ t.Scopes e f a c } s) ?_ fun _ s hs => ?_)
  · split
    · rename_i hc
      exact wp_mono (addScopeControls_comes h) fun _ _ hs =>
        hs.congr_governs fun a c => by simp [hc]
    · rename_i hc
      exact wp_pure ((Comes.refl h).congr_governs fun a c => by simp [hc])
  -- edges to phis are between nodes, so the units show the same stage after them
  refine wp_when (wp_bind (P := fun _ u => Comes e g x f r { t with
    governs := fun a c =>
      t.governs a c ∨ e.settings.controlScopes = true ∧ t.Scopes e f a c } u) ?_ fun _ u hu => ?_)
  · split
    · exact wp_mono (calm_comes (e := e) (fun _ => calm_addPhiControls) hs.shows)
        fun _ _ hu => hs.trans hu
    · exact wp_pure hs
  · split
    · rename_i hc
      refine wp_mono (addLoopControls_comes (e := e) hu.shows) fun _ _ hw => ?_
      refine (hu.trans hw).congr_governs fun a c => ?_
      simp only [hc, true_and]
      exact or_assoc
    · rename_i hc
      exact wp_pure (hu.congr_governs fun a c => by simp [hc])

end Work

end Sdg
