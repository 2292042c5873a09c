import Sdg.Flow.PostDominance
import Sdg.Proofs.Collection

/-!
# Ways to an exit

A way is a path of control with all the blocks on it. The search for the blocks from which one leads
to given ends, inside given blocks, finds these blocks and no others.
-/

namespace Sdg

/-- A way along `goes` from a place to one where it may end: its places in order, repeated as often
as it comes to them. -/
inductive Way {α : Type} (goes : α → α → Prop) (ends : α → Prop) : α → List α → Prop where
  | last {b : α} : ends b → Way goes ends b [b]
  | step {b s : α} {p : List α} : goes b s → Way goes ends s p → Way goes ends b (b :: p)

namespace Way

variable {α : Type} {goes goes' : α → α → Prop} {ends ends' : α → Prop} {b x y : α} {p : List α}

theorem mem (h : Way goes ends b p) : b ∈ p := by
  cases h <;> exact List.mem_cons_self

theorem mono (h : Way goes ends b p) (hg : ∀ a ∈ p, ∀ s ∈ p, goes a s → goes' a s)
    (he : ∀ a ∈ p, ends a → ends' a) : Way goes' ends' b p := by
  induction h with
  | last hb => exact .last (he _ List.mem_cons_self hb)
  | @step b s p hs hp ih =>
    refine .step (hg _ List.mem_cons_self _ (List.mem_cons_of_mem _ hp.mem) hs) (ih ?_ ?_)
    · intro a ha t ht
      exact hg a (List.mem_cons_of_mem _ ha) t (List.mem_cons_of_mem _ ht)
    · intro a ha
      exact he a (List.mem_cons_of_mem _ ha)

/-- A way ends somewhere. -/
theorem exists_end (h : Way goes ends b p) : ∃ e ∈ p, ends e := by
  induction h with
  | last he => exact ⟨_, List.mem_cons_self, he⟩
  | step _ _ ih =>
    obtain ⟨e, hep, he⟩ := ih
    exact ⟨e, List.mem_cons_of_mem _ hep, he⟩

/-- From each of its places on, a way is a way. -/
theorem rest (h : Way goes ends b p) (hx : x ∈ p) :
    ∃ q, Way goes ends x q ∧ q ⊆ p ∧ q.length ≤ p.length := by
  induction h with
  | last hb =>
    cases List.mem_singleton.1 hx
    exact ⟨_, .last hb, List.Subset.refl _, Nat.le_refl _⟩
  | @step b s p hs hp ih =>
    rcases List.mem_cons.1 hx with hxb | hxp
    · cases hxb
      exact ⟨_, .step hs hp, List.Subset.refl _, Nat.le_refl _⟩
    · obtain ⟨q, hq, hqp, hl⟩ := ih hxp
      exact ⟨q, hq, List.Subset.trans hqp (List.subset_cons_self _ _), Nat.le_succ_of_le hl⟩

/-- What is left of a way from a later place on is shorter. -/
theorem rest_lt (h : Way goes ends b p) (hx : x ∈ p) (hxb : x ≠ b) :
    ∃ q, Way goes ends x q ∧ q.length < p.length := by
  cases h with
  | last hb => exact absurd (List.mem_singleton.1 hx) hxb
  | step hs hp =>
    obtain ⟨q, hq, -, hl⟩ := hp.rest ((List.mem_cons.1 hx).resolve_left hxb)
    exact ⟨q, hq, Nat.lt_succ_of_le hl⟩

/-- Before a way first comes to `x`, it leads to a place from which it goes to `x`. -/
theorem upTo (h : Way goes ends b p) (hx : x ∈ p) (hxb : x ≠ b) :
    ∃ q, Way goes (goes · x) b q ∧ x ∉ q ∧ q ⊆ p := by
  induction h with
  | last hb => exact absurd (List.mem_singleton.1 hx) hxb
  | @step b s p hs hp ih =>
    have hxp : x ∈ p := (List.mem_cons.1 hx).resolve_left hxb
    by_cases hxs : x = s
    · cases hxs
      exact ⟨[b], .last hs, by simpa using hxb, by simp⟩
    · obtain ⟨q, hq, hxq, hqp⟩ := ih hxp hxs
      refine ⟨b :: q, .step hs hq, ?_, List.cons_subset_cons _ hqp⟩
      simp [hxb, hxq]

/-- A way on which one of two places lies can be changed to avoid one of them, if from each of the
two there is a way that avoids the other. -/
theorem avoid (h : Way goes ends b p) (hp : x ∈ p ∨ y ∈ p)
    (hx : ∃ q, Way goes ends x q ∧ y ∉ q) (hy : ∃ q, Way goes ends y q ∧ x ∉ q) :
    ∃ q, Way goes ends b q ∧ (x ∉ q ∨ y ∉ q) := by
  -- whichever of the two comes first, its own way goes on from there
  have hfirst : ∀ c, c = x ∨ c = y → ∃ q, Way goes ends c q ∧ (x ∉ q ∨ y ∉ q) := by
    rintro c (rfl | rfl)
    · obtain ⟨q, hq, hn⟩ := hx
      exact ⟨q, hq, .inr hn⟩
    · obtain ⟨q, hq, hn⟩ := hy
      exact ⟨q, hq, .inl hn⟩
  induction h with
  | @last b hb =>
    have hbxy : b = x ∨ b = y := hp.imp (fun h => (List.mem_singleton.1 h).symm)
      fun h => (List.mem_singleton.1 h).symm
    exact hfirst b hbxy
  | @step b s p hs hw ih =>
    by_cases hbxy : b = x ∨ b = y
    · exact hfirst b hbxy
    · obtain ⟨hbx, hby⟩ := not_or.1 hbxy
      have hp' : x ∈ p ∨ y ∈ p := hp.imp
        (fun h => (List.mem_cons.1 h).resolve_left (Ne.symm hbx))
        fun h => (List.mem_cons.1 h).resolve_left (Ne.symm hby)
      obtain ⟨q, hq, hn⟩ := ih hp'
      refine ⟨b :: q, .step hs hq, hn.imp ?_ ?_⟩
      · intro hxq
        simp [Ne.symm hbx, hxq]
      · intro hyq
        simp [Ne.symm hby, hyq]

/-- Two places that lie on all ways of each other are one. -/
theorem antisymm (h : Way goes ends x p) (hx : ∀ q, Way goes ends x q → y ∈ q)
    (hy : ∀ q, Way goes ends y q → x ∈ q) : x = y := by
  -- otherwise there would be ever shorter ways from `x`
  induction hn : p.length using Nat.strongRecOn generalizing p with
  | ind n ih =>
    refine Classical.byContradiction fun hne => ?_
    obtain ⟨q, hq, hqp⟩ := h.rest_lt (hx p h) (Ne.symm hne)
    obtain ⟨q', hq', hq'q⟩ := hq.rest_lt (hy q hq) hne
    exact hne (ih q'.length (by omega) hq' rfl)

end Way

namespace Flow

variable {g : Flow} {b s x : BlockId}

/-- A successor that is listed for a block that has a row. -/
theorem mem_successors (hg : g.blocks.Nodup) :
    s ∈ g.successors b ↔ ∃ ss, (b, ss) ∈ g.rows ∧ s ∈ ss := by
  rw [successors]
  constructor
  · intro hs
    cases hl : g.rows.lookup b with
    | none => simp [hl] at hs
    | some ss => exact ⟨ss, (OrderedMap.lookup_eq_some_iff hg).1 hl, by simpa [hl] using hs⟩
  · rintro ⟨ss, hm, hs⟩
    rw [(OrderedMap.lookup_eq_some_iff hg).2 hm]
    exact hs

theorem successors_eq (hg : g.blocks.Nodup) {ss : List BlockId} (h : (b, ss) ∈ g.rows) :
    g.successors b = ss := by
  rw [successors, (OrderedMap.lookup_eq_some_iff hg).2 h]
  rfl

theorem mem_blocks : b ∈ g.blocks ↔ ∃ ss, (b, ss) ∈ g.rows := by
  simp [blocks]

/-- A block without a row has no successors. -/
theorem successors_eq_nil_of_not_mem (h : b ∉ g.blocks) : g.successors b = [] := by
  rw [successors, OrderedMap.lookup_eq_none_iff.2 h]
  rfl

theorem mem_next : s ∈ g.next b ↔ s ∈ g.successors b ∧ s ∈ g.blocks := by
  simp [next, List.mem_filter]

theorem mem_sources (hg : g.blocks.Nodup) : b ∈ g.sources s ↔ s ∈ g.successors b := by
  rw [mem_successors hg]
  simp [sources]

theorem mem_exits (hg : g.blocks.Nodup) : b ∈ g.exits ↔ b ∈ g.blocks ∧ g.successors b = [] := by
  rw [mem_blocks]
  constructor
  · intro h
    have hm : (b, []) ∈ g.rows := by simpa [exits] using h
    exact ⟨⟨_, hm⟩, successors_eq hg hm⟩
  · rintro ⟨⟨ss, hm⟩, hn⟩
    rw [successors_eq hg hm] at hn
    simpa [exits, hn] using hm

/-- The search finds the blocks from which a way leads to one of the ends inside what is left to
search, and no others. -/
theorem mem_leadingTo (hg : g.blocks.Nodup) {within ends : List BlockId} (hw : within.Nodup) :
    b ∈ g.leadingTo within ends ↔
      ∃ p, Way (fun a s => s ∈ g.successors a) (· ∈ ends) b p ∧ p ⊆ within := by
  -- by recursion on the search: no end left, an end inside, an end outside
  fun_induction leadingTo g within ends with
  | case1 within =>
    constructor
    · intro h
      cases h
    · rintro ⟨p, hp, -⟩
      obtain ⟨e, -, he⟩ := hp.exists_end
      cases he
  | case2 within t ends ht ih =>
    have hin : ∀ {c}, c ∈ within.erase t ↔ c ≠ t ∧ c ∈ within := hw.mem_erase_iff
    rw [List.mem_cons, ih (hw.erase t)]
    constructor
    · rintro (rfl | ⟨p, hp, hpw⟩)
      · exact ⟨[b], .last List.mem_cons_self, by simpa using ht⟩
      · -- where the way ends, it may have to take one more step, to `t`
        suffices h : ∀ c q, Way (fun a s => s ∈ g.successors a) (· ∈ g.sources t ++ ends) c q →
            q ⊆ within.erase t →
            ∃ r, Way (fun a s => s ∈ g.successors a) (· ∈ t :: ends) c r ∧ r ⊆ within from
          h b p hp hpw
        intro c q hq hqw
        induction hq with
        | @last c hc =>
          have hcw : c ∈ within := (hin.1 (hqw List.mem_cons_self)).2
          rcases List.mem_append.1 hc with hct | hce
          · refine ⟨[c, t], .step ((mem_sources hg).1 hct) (.last List.mem_cons_self), ?_⟩
            simp [hcw, ht]
          · exact ⟨[c], .last (List.mem_cons_of_mem _ hce), by simpa using hcw⟩
        | @step c d q hd _ ihq =>
          obtain ⟨hcq, hqw'⟩ := List.cons_subset.1 hqw
          obtain ⟨r, hr, hrw⟩ := ihq hqw'
          exact ⟨c :: r, .step hd hr, List.cons_subset.2 ⟨(hin.1 hcq).2, hrw⟩⟩
    · rintro ⟨p, hp, hpw⟩
      by_cases hbt : b = t
      · exact .inl hbt
      · right
        by_cases htp : t ∈ p
        · -- the way comes to `t`, before that to a source of it
          obtain ⟨q, hq, htq, hqp⟩ := hp.upTo htp (Ne.symm hbt)
          refine ⟨q, hq.mono (fun _ _ _ _ h => h) ?_, ?_⟩
          · intro a _ ha
            exact List.mem_append_left _ ((mem_sources hg).2 ha)
          · intro c hc
            exact hin.2 ⟨fun e => htq (e ▸ hc), hpw (hqp hc)⟩
        · refine ⟨p, hp.mono (fun _ _ _ _ h => h) ?_, ?_⟩
          · intro a ha he
            have hat : a ≠ t := fun e => htp (e ▸ ha)
            exact List.mem_append_right _ ((List.mem_cons.1 he).resolve_left hat)
          · intro c hc
            exact hin.2 ⟨fun e => htp (e ▸ hc), hpw hc⟩
  | case3 within t ends ht ih =>
    rw [ih hw]
    -- no way inside `within` ends at `t`
    refine exists_congr fun p => and_congr_left fun hpw => ?_
    constructor <;> intro hp
    · exact hp.mono (fun _ _ _ _ h => h) fun a _ he => List.mem_cons_of_mem _ he
    · refine hp.mono (fun _ _ _ _ h => h) fun a ha he => ?_
      have hat : a ≠ t := fun e => ht (e ▸ hpw ha)
      exact (List.mem_cons.1 he).resolve_left hat

/-- A way of control through a flow to one of its exits. -/
abbrev ExitWay (g : Flow) : BlockId → List BlockId → Prop :=
  Way (fun b s => s ∈ g.next b) (· ∈ g.exits)

/-- Whether control may get from a block to an exit. -/
def Escapes (g : Flow) (b : BlockId) : Prop := ∃ p, g.ExitWay b p

/-- Whether `x` lies on each way from `b` to an exit. -/
def Forces (g : Flow) (b x : BlockId) : Prop := ∀ p, g.ExitWay b p → x ∈ p

theorem mem_blocks_of_mem_next (h : s ∈ g.next b) : b ∈ g.blocks := by
  refine Classical.byContradiction fun hb => ?_
  rw [mem_next, successors_eq_nil_of_not_mem hb] at h
  cases h.1

theorem ExitWay.subset (hg : g.blocks.Nodup) {p : List BlockId} (h : g.ExitWay b p) :
    p ⊆ g.blocks := by
  induction h with
  | last he => simpa using ((mem_exits hg).1 he).1
  | step hs _ ih => exact List.cons_subset.2 ⟨mem_blocks_of_mem_next hs, ih⟩

/-- The search for exits tells from which blocks a way leads to one inside the given blocks. -/
theorem mem_reachingExit (hg : g.blocks.Nodup) {within : List BlockId} (hw : within.Nodup)
    (hwb : within ⊆ g.blocks) :
    b ∈ g.reachingExit within ↔ ∃ p, g.ExitWay b p ∧ p ⊆ within := by
  rw [reachingExit, mem_leadingTo hg hw]
  refine exists_congr fun p => and_congr_left fun hpw => ?_
  constructor <;> intro hp
  · exact hp.mono (fun _ _ s hs h => mem_next.2 ⟨h, hwb (hpw hs)⟩) fun _ _ h => h
  · exact hp.mono (fun _ _ _ _ h => (mem_next.1 h).1) fun _ _ h => h

theorem mem_reachingExit_blocks (hg : g.blocks.Nodup) :
    b ∈ g.reachingExit g.blocks ↔ g.Escapes b := by
  rw [mem_reachingExit hg hg (List.Subset.refl _)]
  constructor
  · rintro ⟨p, hp, -⟩
    exact ⟨p, hp⟩
  · rintro ⟨p, hp⟩
    exact ⟨p, hp, ExitWay.subset hg hp⟩

end Flow

end Sdg
