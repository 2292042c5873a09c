import Sdg.Flow.Scope
import Sdg.Proofs.Flow.Ways

/-!
# Post-dominators

The chain of a block holds its post-dominators, each before those that post-dominate it. So the rest
of a chain is the chain of the nearest post-dominator, and to go along immediate post-dominators is
to go along the chain.
-/

namespace Sdg

namespace Flow

variable {g : Flow} {b s t x y : BlockId}

theorem Escapes.forces_self (b : BlockId) : g.Forces b b := fun _ hp => hp.mem

theorem Forces.trans (hx : g.Forces b x) (hy : g.Forces x y) : g.Forces b y := by
  intro p hp
  obtain ⟨q, hq, hqp, -⟩ := Way.rest hp (hx p hp)
  exact hqp (hy q hq)

/-- What is forced lies on a way to an exit, so control may get to one from there. -/
theorem Escapes.of_forces (hb : g.Escapes b) (hx : g.Forces b x) : g.Escapes x := by
  obtain ⟨p, hp⟩ := hb
  obtain ⟨q, hq, -⟩ := Way.rest hp (hx p hp)
  exact ⟨q, hq⟩

theorem Escapes.of_next (hs : s ∈ g.next b) (h : g.Escapes s) : g.Escapes b := by
  obtain ⟨p, hp⟩ := h
  exact ⟨b :: p, .step hs hp⟩

/-- What is forced after a block is forced after each of its successors, but for the block. -/
theorem Forces.of_next (hs : s ∈ g.next b) (hx : g.Forces b x) (hne : x ≠ b) : g.Forces s x := by
  intro p hp
  exact (List.mem_cons.1 (hx (b :: p) (.step hs hp))).resolve_left hne

theorem Forces.antisymm (hx : g.Escapes x) (hxy : g.Forces x y) (hyx : g.Forces y x) : x = y := by
  obtain ⟨p, hp⟩ := hx
  exact Way.antisymm hp hxy hyx

/-- Of two blocks that are forced after a third, one is forced after the other. -/
theorem Forces.linear (hb : g.Escapes b) (hx : g.Forces b x) (hy : g.Forces b y) :
    g.Forces x y ∨ g.Forces y x := by
  refine Classical.byContradiction fun hne => ?_
  -- from each of the two a way avoids the other, so from `b` a way avoids one of them
  have havoid : ∀ {c d}, ¬ g.Forces c d → ∃ q, g.ExitWay c q ∧ d ∉ q := fun h => by
    simpa [Forces] using h
  obtain ⟨hxy, hyx⟩ := not_or.1 hne
  obtain ⟨p, hp⟩ := hb
  obtain ⟨q, hq, hn⟩ := Way.avoid hp (.inl (hx p hp)) (havoid hxy) (havoid hyx)
  exact hn.elim (fun h => h (hx q hq)) fun h => h (hy q hq)

/-! ## Chains -/

/-- The blocks that `x` post-dominates. -/
def area (g : Flow) (x : BlockId) : List BlockId := g.postDominated (g.reachingExit g.blocks) x

theorem mem_area (hg : g.blocks.Nodup) : s ∈ g.area x ↔ g.Escapes s ∧ g.Forces s x := by
  have hout : s ∈ g.reachingExit (g.blocks.erase x) ↔ ∃ p, g.ExitWay s p ∧ x ∉ p := by
    rw [mem_reachingExit hg (hg.erase x) List.erase_subset]
    refine exists_congr fun p => and_congr_right fun hp => ?_
    constructor
    · intro h hx
      exact (hg.mem_erase_iff.1 (h hx)).1 rfl
    · intro h c hc
      exact hg.mem_erase_iff.2 ⟨fun e => h (e ▸ hc), ExitWay.subset hg hp hc⟩
  have hin : ¬ (∃ p, g.ExitWay s p ∧ x ∉ p) ↔ g.Forces s x := by
    simp [Forces]
  simp [area, postDominated, mem_reachingExit_blocks hg, hout, hin]

/-- What post-dominates a block post-dominates more than the block does. -/
theorem length_area_lt (hg : g.blocks.Nodup) (hx : g.Escapes x) (hxy : g.Forces x y)
    (hne : x ≠ y) : (g.area x).length < (g.area y).length := by
  have hsub : (g.area x).Sublist (g.area y) := by
    have hmem : ∀ s ∈ g.area x, s ∈ g.area y := fun s hs => by
      rw [mem_area hg] at hs ⊢
      exact ⟨hs.1, hs.2.trans hxy⟩
    have hcut : g.area x = (g.area y).filter fun s => decide (s ∈ g.area x) := by
      unfold area postDominated at hmem ⊢
      rw [List.filter_filter]
      apply List.filter_congr
      intro s hs
      have := hmem s
      simp only [List.mem_filter, hs, true_and] at this ⊢
      grind
    rw [hcut]
    exact List.filter_sublist
  refine Nat.lt_of_le_of_ne hsub.length_le fun he => ?_
  -- `y` post-dominates itself, `x` does not post-dominate it
  have hy : y ∈ g.area x := by
    rw [hsub.eq_of_length he, mem_area hg]
    exact ⟨hx.of_forces hxy, Escapes.forces_self y⟩
  exact hne (Forces.antisymm hx hxy ((mem_area hg).1 hy).2)

theorem areas_ofFlow (g : Flow) : (PostDominance.ofFlow g).areas =
    (g.blocks.map fun x => (x, g.area x)).mergeSort fun a b => a.2.length ≤ b.2.length := rfl

theorem mem_areas {l : List BlockId} :
    (x, l) ∈ (PostDominance.ofFlow g).areas ↔ x ∈ g.blocks ∧ l = g.area x := by
  rw [areas_ofFlow, List.mem_mergeSort]
  simp only [List.mem_map, Prod.mk.injEq]
  constructor
  · rintro ⟨c, hc, rfl, rfl⟩
    exact ⟨hc, rfl⟩
  · rintro ⟨hx, rfl⟩
    exact ⟨x, hx, rfl, rfl⟩

/-- The chain of a block holds what lies on each way from it to an exit, if there is a way. -/
theorem mem_chain (hg : g.blocks.Nodup) :
    x ∈ (PostDominance.ofFlow g).chain s ↔ g.Escapes s ∧ g.Forces s x := by
  rw [← mem_area hg, PostDominance.chain, List.mem_map]
  constructor
  · rintro ⟨⟨c, l⟩, hm, rfl⟩
    obtain ⟨ha, hs⟩ := List.mem_filter.1 hm
    obtain ⟨-, rfl⟩ := mem_areas.1 ha
    exact List.contains_iff_mem.1 hs
  · intro hs
    obtain ⟨⟨p, hp⟩, hx⟩ := (mem_area hg).1 hs
    have hxb : x ∈ g.blocks := ExitWay.subset hg hp (hx p hp)
    exact ⟨(x, g.area x), List.mem_filter.2
      ⟨mem_areas.2 ⟨hxb, rfl⟩, List.contains_iff_mem.2 hs⟩, rfl⟩

theorem chain_eq_nil (hg : g.blocks.Nodup) (hs : ¬ g.Escapes s) :
    (PostDominance.ofFlow g).chain s = [] := by
  refine List.eq_nil_iff_forall_not_mem.2 fun x hx => hs ((mem_chain hg).1 hx).1

theorem chain_ne_nil (hg : g.blocks.Nodup) (hs : g.Escapes s) :
    (PostDominance.ofFlow g).chain s ≠ [] :=
  List.ne_nil_of_mem ((mem_chain hg).2 ⟨hs, Escapes.forces_self s⟩)

/-- A chain goes up: each block post-dominates less than those that come later. -/
theorem sorted_chain (hg : g.blocks.Nodup) : ((PostDominance.ofFlow g).chain s).Pairwise
    fun x y => (g.area x).length < (g.area y).length := by
  have hsort : (PostDominance.ofFlow g).areas.Pairwise fun a b => a.2.length ≤ b.2.length := by
    refine (List.pairwise_mergeSort ?_ ?_ _).imp of_decide_eq_true
    · intro a b c hab hbc
      simp only [decide_eq_true_eq] at *
      omega
    · intro a b
      simp only [Bool.or_eq_true, decide_eq_true_eq]
      omega
  have hdist : ((PostDominance.ofFlow g).areas.map Prod.fst).Nodup := by
    have hperm : ((PostDominance.ofFlow g).areas.map Prod.fst).Perm g.blocks := by
      refine ((List.mergeSort_perm _ _).map Prod.fst).trans ?_
      rw [List.map_map]
      exact (List.map_id g.blocks).symm ▸ List.Perm.refl _
    exact hperm.nodup_iff.2 hg
  rw [List.Nodup, List.pairwise_map] at hdist
  rw [PostDominance.chain, List.pairwise_map]
  refine ((hsort.and hdist).filter _).imp_of_mem ?_
  rintro ⟨x, l⟩ ⟨y, l'⟩ hx hy ⟨hle, hne⟩
  obtain ⟨hx, hsx⟩ := List.mem_filter.1 hx
  obtain ⟨hy, hsy⟩ := List.mem_filter.1 hy
  obtain ⟨-, rfl⟩ := mem_areas.1 hx
  obtain ⟨-, rfl⟩ := mem_areas.1 hy
  obtain ⟨hs, hsx⟩ := (mem_area hg).1 (List.contains_iff_mem.1 hsx)
  obtain ⟨-, hsy⟩ := (mem_area hg).1 (List.contains_iff_mem.1 hsy)
  -- both post-dominate `s`, so one post-dominates the other, and that is the later one
  rcases hsx.linear hs hsy with hxy | hyx
  · exact length_area_lt hg (hs.of_forces hsx) hxy hne
  · exact absurd (length_area_lt hg (hs.of_forces hsy) hyx (Ne.symm hne)) (Nat.not_lt.2 hle)

/-- A chain begins with its block. -/
theorem exists_chain_eq_cons (hg : g.blocks.Nodup) (hb : g.Escapes b) :
    ∃ later, (PostDominance.ofFlow g).chain b = b :: later := by
  have hsorted := sorted_chain (s := b) hg
  have hself : b ∈ (PostDominance.ofFlow g).chain b :=
    (mem_chain hg).2 ⟨hb, Escapes.forces_self b⟩
  cases hc : (PostDominance.ofFlow g).chain b with
  | nil => exact absurd hc (chain_ne_nil hg hb)
  | cons c later =>
    have hforced : g.Forces b c := ((mem_chain hg).1 (hc ▸ List.mem_cons_self)).2
    rw [hc] at hsorted hself
    rcases List.mem_cons.1 hself with rfl | hlater
    · exact ⟨later, rfl⟩
    · -- what is forced after `b` cannot come before it
      have hlt := List.rel_of_pairwise_cons hsorted hlater
      have hne : b ≠ c := by
        rintro rfl
        exact Nat.lt_irrefl _ hlt
      exact absurd (length_area_lt hg hb hforced hne) (Nat.lt_asymm hlt)

/-- A chain is known by its blocks. -/
theorem eq_chain (hg : g.blocks.Nodup) {l : List BlockId}
    (hl : l.Pairwise fun x y => (g.area x).length < (g.area y).length)
    (hm : ∀ x, x ∈ l ↔ x ∈ (PostDominance.ofFlow g).chain s) :
    (PostDominance.ofFlow g).chain s = l := by
  have hnd : ∀ {l : List BlockId}, (l.Pairwise fun x y => (g.area x).length < (g.area y).length) →
      l.Nodup := fun h => h.imp fun hlt he => by simp [he] at hlt
  have hperm := (List.perm_ext_iff_of_nodup (hnd (sorted_chain hg)) (hnd hl)).2 fun x => (hm x).symm
  exact hperm.eq_of_pairwise (fun x y _ _ hxy hyx => absurd hxy (Nat.lt_asymm hyx))
    (sorted_chain hg) hl

end Flow

end Sdg
