import Sdg.Proofs.Flow.PostDominators

/-!
# Climbing the tree of post-dominators

Turned round and given a virtual node before all exits, a flow has dominators where it had
post-dominators. Whoever climbs from a successor along immediate dominators, and stops at the
immediate dominator of the block, comes by what is decided by the block, in the same order.

Main results:

* `Flow.immediateDominators_nearest` — a flow turned round has immediate dominators, and they are
  read off its chains;
* `Flow.climb_decidedBy` — what a block decides is what a climb along immediate dominators comes by.
-/

namespace Sdg

section

variable {α : Type}

/-- Whether `d` lies on each path along `edge` from `root` to `n`. -/
def Dominates (edge : α → α → Prop) (root d n : α) : Prop :=
  ∀ p, Way (fun a b => edge b a) (· = root) n p → d ∈ p

/-- What an algorithm for immediate dominators promises: a node that can be reached from the root
has one, which is dominated by all others that dominate the node, and no other node has one. -/
structure ImmediateDominators (edge : α → α → Prop) (root : α) (idom : α → Option α) : Prop where
  unreached : ∀ n, (∀ p, ¬ Way (fun a b => edge b a) (· = root) n p) → idom n = none
  reached : ∀ n p, n ≠ root → Way (fun a b => edge b a) (· = root) n p →
    ∃ d, idom n = some d ∧ d ≠ n ∧ Dominates edge root d n ∧
      ∀ c, c ≠ n → Dominates edge root c n → Dominates edge root c d

end

namespace Flow

/-- The edges of a flow turned round, with a virtual node `none` that leads to the exits. -/
inductive Turned (g : Flow) : Option BlockId → Option BlockId → Prop where
  | exit {e : BlockId} : e ∈ g.exits → Turned g none (some e)
  | edge {b s : BlockId} : s ∈ g.next b → Turned g (some s) (some b)

/-- What a climb along `idom` comes by, from a node on until it gets to `stop`, to the virtual node
or to where there is no next node. -/
inductive Climb (idom : Option BlockId → Option (Option BlockId))
    (stop : Option (Option BlockId)) : Option (Option BlockId) → List BlockId → Prop where
  | off : Climb idom stop none []
  | stopped {n : Option BlockId} : some n = stop → Climb idom stop (some n) []
  | top : Climb idom stop (some none) []
  | block {b : BlockId} {l : List BlockId} : some (some b) ≠ stop →
      Climb idom stop (idom (some b)) l → Climb idom stop (some (some b)) (b :: l)

variable {g : Flow} {b d s x : BlockId} {idom : Option BlockId → Option (Option BlockId)}

/-- The ways to the virtual node are the ways to an exit, with one more step. -/
theorem turned_way {n : Option BlockId} {q : List (Option BlockId)} :
    Way (fun a b => g.Turned b a) (· = none) n q ↔
      (n = none ∧ q = [none]) ∨
        ∃ b p, n = some b ∧ g.ExitWay b p ∧ q = p.map some ++ [none] := by
  constructor
  · intro h
    -- a way in the turned graph is read backwards: its last step leaves an exit
    induction h with
    | last hn => exact .inl ⟨hn, by rw [hn]⟩
    | step hs _ ih =>
      right
      cases hs with
      | @exit e he =>
        rcases ih with ⟨-, rfl⟩ | ⟨_, _, hn, _⟩
        · exact ⟨e, [e], rfl, .last he, rfl⟩
        · cases hn
      | @edge b s hs =>
        rcases ih with ⟨hn, -⟩ | ⟨c, p, hn, hp, rfl⟩
        · cases hn
        · cases hn
          exact ⟨b, b :: p, rfl, .step hs hp, rfl⟩
  · rintro (⟨rfl, rfl⟩ | ⟨b, p, rfl, hp, rfl⟩)
    · exact .last rfl
    · induction hp with
      | last he => exact .step (.exit he) (.last rfl)
      | step hs _ ih => exact .step (.edge hs) ih

theorem dominates_some : Dominates g.Turned none (some x) (some b) ↔ g.Forces b x := by
  constructor
  · intro h p hp
    simpa using h _ (turned_way.2 (.inr ⟨b, p, rfl, hp, rfl⟩))
  · intro h q hq
    rcases turned_way.1 hq with ⟨hn, -⟩ | ⟨c, p, hc, hp, rfl⟩
    · cases hn
    · cases hc
      simpa using h p hp

/-- No block dominates the virtual node. -/
theorem not_dominates_none : ¬ Dominates g.Turned none (some x) none := by
  intro h
  simpa using h [none] (.last rfl)

/-- The virtual node is on each way to it. -/
theorem dominates_none (g : Flow) (n : Option BlockId) : Dominates g.Turned none none n := by
  intro q hq
  rcases turned_way.1 hq with ⟨-, rfl⟩ | ⟨_, p, -, -, rfl⟩ <;> simp

/-- What comes next above a block: the virtual node if the block post-dominates itself alone, or else
the post-dominator that all others post-dominate. -/
def IsNearest (g : Flow) (b : BlockId) (n : Option BlockId) : Prop :=
  n = none ∧ (∀ x, g.Forces b x → x = b) ∨
    ∃ d, n = some d ∧ d ≠ b ∧ g.Forces b d ∧ ∀ x, x ≠ b → g.Forces b x → g.Forces d x

/-! ## Immediate dominators -/

/-- A block from which no exit is reached has no immediate dominator. -/
theorem idom_eq_none (h : ImmediateDominators g.Turned none idom) (hb : ¬ g.Escapes b) :
    idom (some b) = none := by
  refine h.unreached _ fun q hq => hb ?_
  rcases turned_way.1 hq with ⟨hn, -⟩ | ⟨c, p, hc, hp, -⟩
  · cases hn
  · cases hc
    exact ⟨p, hp⟩

/-- The immediate dominator of a block from which an exit is reached comes next above it. -/
theorem exists_idom (h : ImmediateDominators g.Turned none idom) (hb : g.Escapes b) :
    ∃ n, idom (some b) = some n ∧ g.IsNearest b n := by
  obtain ⟨p, hp⟩ := hb
  obtain ⟨n, hn, hnb, hdom, hnear⟩ := h.reached (some b) _ nofun
    (turned_way.2 (.inr ⟨b, p, rfl, hp, rfl⟩))
  refine ⟨n, hn, ?_⟩
  have hnear' : ∀ x, x ≠ b → g.Forces b x → Dominates g.Turned none (some x) n := fun x hx hf =>
    hnear (some x) (fun e => hx (Option.some.inj e)) (dominates_some.2 hf)
  cases n with
  | none =>
    refine .inl ⟨rfl, fun x hf => ?_⟩
    exact Classical.byContradiction fun hx => not_dominates_none (hnear' x hx hf)
  | some d =>
    refine .inr ⟨d, rfl, fun e => hnb (e ▸ rfl), dominates_some.1 hdom, fun x hx hf => ?_⟩
    exact dominates_some.1 (hnear' x hx hf)

/-- What comes next above a node: for a block the next one of its chain, or the virtual node if it is
the last one. Where no exit is reached, and above the virtual node, there is nothing. -/
def nearest (g : Flow) : Option BlockId → Option (Option BlockId)
  | none => none
  | some b => match (PostDominance.ofFlow g).chain b with
    | [] => none
    | _ :: later => some later.head?

theorem exists_nearest (hg : g.blocks.Nodup) (hb : g.Escapes b) :
    ∃ n, g.nearest (some b) = some n ∧ g.IsNearest b n := by
  have hsorted := sorted_chain (s := b) hg
  have hmem : ∀ {x}, g.Forces b x ↔ x ∈ (PostDominance.ofFlow g).chain b :=
    fun {x} => ⟨fun hx => (mem_chain hg).2 ⟨hb, hx⟩, fun hx => ((mem_chain hg).1 hx).2⟩
  obtain ⟨later, hc⟩ := exists_chain_eq_cons hg hb
  rw [hc] at hsorted hmem
  refine ⟨later.head?, by rw [nearest, hc], ?_⟩
  cases later with
  | nil => exact .inl ⟨rfl, fun x hx => List.mem_singleton.1 (hmem.1 hx)⟩
  | cons d later =>
    have hd : g.Forces b d := hmem.2 (by simp)
    obtain ⟨hbelow, hsorted⟩ := List.pairwise_cons.1 hsorted
    refine .inr ⟨d, rfl, ?_, hd, fun x hxb hx => ?_⟩
    · rintro rfl
      exact Nat.lt_irrefl _ (hbelow d (by simp))
    · rcases List.mem_cons.1 ((List.mem_cons.1 (hmem.1 hx)).resolve_left hxb) with rfl | hlater
      · exact Escapes.forces_self x
      · -- the chain goes up, so what comes later is not left before `d`
        have hlt := List.rel_of_pairwise_cons hsorted hlater
        refine (hd.linear hb hx).resolve_right fun hxd => ?_
        have hne : x ≠ d := by
          rintro rfl
          exact Nat.lt_irrefl _ hlt
        exact Nat.lt_asymm hlt (length_area_lt hg (hb.of_forces hx) hxd hne)

/-- Nothing else comes next above a block. -/
theorem IsNearest.eq {n n' : Option BlockId} (hb : g.Escapes b) (h : g.IsNearest b n)
    (h' : g.IsNearest b n') : n = n' := by
  rcases h with ⟨rfl, hself⟩ | ⟨d, rfl, hdb, hd, hnear⟩ <;>
    rcases h' with ⟨rfl, hself'⟩ | ⟨d', rfl, hdb', hd', hnear'⟩
  · rfl
  · exact absurd (hself d' hd') hdb'
  · exact absurd (hself' d hd) hdb
  · exact congrArg some
      (Forces.antisymm (hb.of_forces hd) (hnear d' hdb' hd') (hnear' d hdb hd))

/-- A successor that control is sure to come to is what comes next above a block. -/
theorem nearest_of_next (hg : g.blocks.Nodup) (hb : g.Escapes b) (hs : s ∈ g.next b)
    (hne : s ≠ b) (hf : g.Forces b s) : g.nearest (some b) = some (some s) := by
  obtain ⟨n, hn, hnear⟩ := exists_nearest hg hb
  have hnext : g.IsNearest b (some s) :=
    .inr ⟨s, rfl, hne, hf, fun _ hx hbx => hbx.of_next hs hx⟩
  rw [hn, hnear.eq hb hnext]

/-- **Immediate dominators** can be read off the chains of any flow. -/
theorem immediateDominators_nearest (hg : g.blocks.Nodup) :
    ImmediateDominators g.Turned none g.nearest where
  unreached n hn := by
    cases n with
    | none => rfl
    | some b =>
      have hb : ¬ g.Escapes b := by
        rintro ⟨p, hp⟩
        exact hn _ (turned_way.2 (.inr ⟨b, p, rfl, hp, rfl⟩))
      rw [nearest, chain_eq_nil hg hb]
  reached n q hne hq := by
    rcases turned_way.1 hq with ⟨hn, -⟩ | ⟨b, p, rfl, hp, -⟩
    · exact absurd hn hne
    obtain ⟨n, hn, ⟨rfl, hself⟩ | ⟨d, rfl, hdb, hd, hnear⟩⟩ := exists_nearest hg ⟨p, hp⟩
    · refine ⟨none, hn, nofun, dominates_none g _, fun c hcb hc => ?_⟩
      cases c with
      | none => exact dominates_none g none
      | some x => exact absurd (congrArg some (hself x (dominates_some.1 hc))) hcb
    · refine ⟨some d, hn, fun e => hdb (Option.some.inj e), dominates_some.2 hd, fun c hcb hc => ?_⟩
      cases c with
      | none => exact dominates_none g _
      | some x =>
        have hxb : x ≠ b := fun e => hcb (congrArg some e)
        exact dominates_some.2 (hnear x hxb (dominates_some.1 hc))

/-! ## Climbs -/

/-- The chain of a block that post-dominates itself alone. -/
theorem chain_eq_single (hg : g.blocks.Nodup) (hs : g.Escapes s)
    (hx : ∀ x, g.Forces s x → x = s) : (PostDominance.ofFlow g).chain s = [s] := by
  refine eq_chain hg (List.pairwise_singleton _ _) fun x => ?_
  rw [mem_chain hg, List.mem_singleton]
  constructor
  · rintro rfl
    exact ⟨hs, Escapes.forces_self x⟩
  · exact fun h => hx x h.2

/-- The chain of any other block goes on with that of its nearest post-dominator. -/
theorem chain_eq_cons (hg : g.blocks.Nodup) (hs : g.Escapes s) (hds : d ≠ s) (hd : g.Forces s d)
    (hnear : ∀ x, x ≠ s → g.Forces s x → g.Forces d x) :
    (PostDominance.ofFlow g).chain s = s :: (PostDominance.ofFlow g).chain d := by
  have hde : g.Escapes d := hs.of_forces hd
  have hne : ∀ {x}, g.Forces d x → x ≠ s := fun hx e =>
    hds (Forces.antisymm hde (e ▸ hx) hd)
  refine eq_chain hg (List.pairwise_cons.2 ⟨?_, sorted_chain hg⟩) fun x => ?_
  · intro x hx
    have hdx : g.Forces d x := ((mem_chain hg).1 hx).2
    exact length_area_lt hg hs (hd.trans hdx) (Ne.symm (hne hdx))
  · rw [List.mem_cons, mem_chain hg, mem_chain hg]
    constructor
    · rintro (rfl | ⟨-, hdx⟩)
      · exact ⟨hs, Escapes.forces_self x⟩
      · exact ⟨hs, hd.trans hdx⟩
    · rintro ⟨-, hsx⟩
      by_cases hxs : x = s
      · exact .inl hxs
      · exact .inr ⟨hde, hnear x hxs hsx⟩

/-- A climb that stops at no block comes by the whole chain. -/
theorem climb_chain (hg : g.blocks.Nodup) (h : ImmediateDominators g.Turned none idom)
    {stop : Option (Option BlockId)} (hstop : ∀ x, some (some x) ≠ stop) :
    ∀ l s, g.Escapes s → (PostDominance.ofFlow g).chain s = l →
      Climb idom stop (some (some s)) l := by
  intro l
  induction l with
  | nil => exact fun s hs hl => absurd hl (chain_ne_nil hg hs)
  | cons c l ih =>
    intro s hs hl
    obtain ⟨n, hn, ⟨rfl, hself⟩ | ⟨d, rfl, hds, hd, hnear⟩⟩ := exists_idom h hs
    · rw [chain_eq_single hg hs hself] at hl
      cases hl
      exact .block (hstop _) (hn ▸ .top)
    · rw [chain_eq_cons hg hs hds hd hnear] at hl
      cases hl
      exact .block (hstop _) (hn ▸ ih d (hs.of_forces hd) rfl)

/-- A climb that stops at a block of the chain comes by those before it: by what is not in the chain
of that block. -/
theorem climb_until (hg : g.blocks.Nodup) (h : ImmediateDominators g.Turned none idom) :
    ∀ l s, g.Escapes s → (PostDominance.ofFlow g).chain s = l → g.Forces s d →
      Climb idom (some (some d)) (some (some s))
        (l.filter fun x => !((PostDominance.ofFlow g).chain d).contains x) := by
  intro l
  induction l with
  | nil => exact fun s hs hl => absurd hl (chain_ne_nil hg hs)
  | cons c l ih =>
    intro s hs hl hsd
    by_cases hds : d = s
    · -- the climb is where it is to stop
      cases hds
      have hnil :
          (c :: l).filter (fun x => !((PostDominance.ofFlow g).chain d).contains x) = [] := by
        rw [List.filter_eq_nil_iff, ← hl]
        intro x hx
        simpa using hx
      rw [hnil]
      exact .stopped rfl
    · -- a block that `d` forces as well would be `d` itself
      have hkeep : s ∉ (PostDominance.ofFlow g).chain d := fun hm =>
        hds (Forces.antisymm (hs.of_forces hsd) ((mem_chain hg).1 hm).2 hsd)
      obtain ⟨n, hn, ⟨rfl, hself⟩ | ⟨t, rfl, hts, ht, hnear⟩⟩ := exists_idom h hs
      · exact absurd (hself d hsd) hds
      · rw [chain_eq_cons hg hs hts ht hnear] at hl
        cases hl
        rw [List.filter_cons_of_pos (by simpa using hkeep)]
        refine .block (fun e => hds (Option.some.inj (Option.some.inj e)).symm) ?_
        exact hn ▸ ih t (hs.of_forces ht) rfl (hnear d hds hsd)

/-- What is decided by a block is what a climb comes by that starts at the successor and stops at
the immediate dominator of the block. -/
theorem climb_decidedBy (hg : g.blocks.Nodup) (h : ImmediateDominators g.Turned none idom)
    (hs : s ∈ g.next b) :
    Climb idom (idom (some b)) (some (some s)) (decidedBy (.ofFlow g) b s) := by
  unfold decidedBy
  by_cases hse : g.Escapes s
  · have hbe : g.Escapes b := .of_next hs hse
    have hne := chain_ne_nil hg hse
    split
    · contradiction
    · dsimp only
      obtain ⟨n, hn, ⟨rfl, hself⟩ | ⟨d, rfl, hdb, hd, hnear⟩⟩ := exists_idom h hbe
      · -- nothing stops the climb, and nothing but `b` is sure to run at `b`
        have hall : ((PostDominance.ofFlow g).chain s).filter (fun x =>
            x = b || !((PostDominance.ofFlow g).chain b).contains x)
            = (PostDominance.ofFlow g).chain s := by
          rw [List.filter_eq_self, chain_eq_single hg hbe hself]
          intro x _
          by_cases hx : x = b <;> simp [hx]
        rw [hall, hn]
        exact climb_chain hg h (by simp) _ s hse rfl
      · -- what is sure to run at `b` but `b` itself is the chain of the block to stop at
        have hbd : b ∉ (PostDominance.ofFlow g).chain d := fun hm =>
          hdb (Forces.antisymm (hbe.of_forces hd) ((mem_chain hg).1 hm).2 hd)
        have htest : ∀ x, (decide (x = b) || !((PostDominance.ofFlow g).chain b).contains x)
            = !((PostDominance.ofFlow g).chain d).contains x := by
          intro x
          rw [chain_eq_cons hg hbe hdb hd hnear]
          by_cases hx : x = b <;> simp [hx, hbd]
        rw [hn, List.filter_congr fun x _ => htest x]
        exact climb_until hg h _ s hse rfl (hd.of_next hs hdb)
  · rw [chain_eq_nil hg hse]
    refine .block ?_ (idom_eq_none h hse ▸ .off)
    -- from where the climb is to stop, an exit is reached
    intro hstop
    by_cases hbe : g.Escapes b
    · obtain ⟨n, hn, ⟨rfl, -⟩ | ⟨d, rfl, -, hd, -⟩⟩ := exists_idom h hbe
      · rw [hn] at hstop
        cases hstop
      · rw [hn] at hstop
        cases hstop
        exact hse (hbe.of_forces hd)
    · rw [idom_eq_none h hbe] at hstop
      cases hstop

end Flow

end Sdg
