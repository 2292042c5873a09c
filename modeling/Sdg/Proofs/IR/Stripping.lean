import Mathlib.Data.Fintype.Pigeonhole
import Mathlib.Data.Fintype.Card
import Mathlib.Dynamics.PeriodicPts.Defs
import Mathlib.Logic.Relation
import Sdg.Proofs.Closed
import Sdg.Proofs.Safety.Sane

/-!
# How far stripping goes

A value that adjusts another one leads to it, so the adjustments of a value form a chain. The walk
along a chain is cut off after as many steps as there are values, and one more. A chain that comes
to an end meets no value twice, so it is shorter than that. One that never ends has met a value
twice by then, and goes round in a circle from there on.

Main results:

* `Module.IsClosed.stripWithin_eq` — a walk in a closed module answers with the value that many
  steps down the chain;
* `Module.IsClosed.isPeriodicPt_stripped` — where the walk is cut off, the chain repeats itself;
* `Module.IsClosed.strips` — stripping comes to the end of every chain that has one, and to the
  circle of every other.
-/

namespace Sdg

open Relation (ReflTransGen TransGen)

/-! ## Chains -/

/-- Whether a value of this kind is an adjustment of the value `w`. With `offsets`, in-bounds
address computations are adjustments. -/
inductive ValueKind.Adjusts (offsets : Bool) : ValueKind → ValueId → Prop where
  | aliasOf (w : ValueId) : Adjusts offsets (.aliasOf w) w
  | cast (w : ValueId) : Adjusts offsets (.expr (.cast w)) w
  | castHere (f : FunctionId) (b : BlockId) (w : ValueId) :
      Adjusts offsets (.instruction ⟨f, b, .cast w⟩) w
  | offset (w : ValueId) (h : offsets = true) : Adjusts offsets (.expr (.getElementPtr w true)) w
  | offsetHere (f : FunctionId) (b : BlockId) (w : ValueId) (indices : List ValueId)
      (h : offsets = true) : Adjusts offsets (.instruction ⟨f, b, .getElementPtr w indices true⟩) w

theorem ValueKind.adjusted?_eq_some_iff {offsets : Bool} {k : ValueKind} {w : ValueId} :
    k.adjusted? offsets = some w ↔ k.Adjusts offsets w := by
  constructor
  · intro h
    unfold adjusted? at h
    split at h
    · cases h
      exact .aliasOf w
    · cases h
      exact .cast w
    · split at h
      · rename_i hin
        cases h
        obtain ⟨ho, rfl⟩ := Bool.and_eq_true_iff.1 hin
        exact .offset w ho
      · cases h
    · cases h
      exact .castHere _ _ w
    · split at h
      · rename_i hin
        cases h
        obtain ⟨ho, rfl⟩ := Bool.and_eq_true_iff.1 hin
        exact .offsetHere _ _ w _ ho
      · cases h
    · cases h
  · intro h
    cases h with
    | offset w h | offsetHere f b w indices h =>
      subst h
      rfl
    | _ => rfl

theorem ValueKind.Adjusts.with_offsets {offsets : Bool} {k : ValueKind} {w : ValueId}
    (h : k.Adjusts false w) : k.Adjusts offsets w := by
  cases h with
  | aliasOf w => exact .aliasOf w
  | cast w => exact .cast w
  | castHere f b w => exact .castHere f b w
  | offset w h | offsetHere f b w indices h => cases h

namespace Module

/-- Whether the chain from `v` goes on with `w`: the value `v` is an adjustment of `w`. -/
def Adjusts (m : Module) (offsets : Bool) (v w : ValueId) : Prop :=
  ∃ x, m.value v = .ok x ∧ x.kind.Adjusts offsets w

/-- Whether the chain from `v` ends at `w`. -/
structure EndsAt (m : Module) (offsets : Bool) (v w : ValueId) : Prop where
  reached : ReflTransGen (m.Adjusts offsets) v w
  last : ∀ u, ¬ m.Adjusts offsets w u

/-- What comes after `v` in its chain. The end of a chain stands still. -/
def next (m : Module) (offsets : Bool) (v : ValueId) : ValueId :=
  match m.value v with
  | .ok x => (x.kind.adjusted? offsets).getD v
  | .error _ => v

variable {m : Module} {offsets : Bool} {u v w : ValueId}

theorem Adjusts.next_eq (h : m.Adjusts offsets v w) : m.next offsets v = w := by
  obtain ⟨x, hx, hk⟩ := h
  simp [next, hx, ValueKind.adjusted?_eq_some_iff.2 hk]

theorem next_eq_self (h : ∀ u, ¬ m.Adjusts offsets v u) : m.next offsets v = v := by
  unfold next
  cases hx : m.value v with
  | error e => rfl
  | ok x =>
    cases hk : x.kind.adjusted? offsets with
    | none => simp [hk]
    | some u => exact absurd ⟨x, hx, ValueKind.adjusted?_eq_some_iff.1 hk⟩ (h u)

/-- A chain that is not at its end goes on with what comes next. -/
theorem adjusts_next (h : ∃ u, m.Adjusts offsets v u) : m.Adjusts offsets v (m.next offsets v) := by
  obtain ⟨u, hu⟩ := h
  rwa [hu.next_eq]

/-- A chain without offsets is part of the one with them. -/
theorem Adjusts.with_offsets (h : m.Adjusts false v w) : m.Adjusts offsets v w := by
  obtain ⟨x, hx, hk⟩ := h
  exact ⟨x, hx, hk.with_offsets⟩

/-! ## Steps along a chain -/

/-- Whatever is reached along a chain is some number of steps away. -/
theorem exists_iterate_next (h : ReflTransGen (m.Adjusts offsets) v w) :
    ∃ n, (m.next offsets)^[n] v = w := by
  induction h with
  | refl => exact ⟨0, rfl⟩
  | tail _ hstep ih =>
    obtain ⟨n, rfl⟩ := ih
    exact ⟨n + 1, by rw [Function.iterate_succ_apply', hstep.next_eq]⟩

theorem reflTransGen_iterate_next (m : Module) (offsets : Bool) (v : ValueId) (n : Nat) :
    ReflTransGen (m.Adjusts offsets) v ((m.next offsets)^[n] v) := by
  induction n with
  | zero => exact .refl
  | succ n ih =>
    rw [Function.iterate_succ_apply']
    by_cases h : ∃ u, m.Adjusts offsets ((m.next offsets)^[n] v) u
    · exact ih.tail (adjusts_next h)
    · rwa [next_eq_self (not_exists.1 h)]

theorem EndsAt.isFixedPt (h : m.EndsAt offsets v w) : Function.IsFixedPt (m.next offsets) w :=
  next_eq_self h.last

/-- Where a chain repeats itself it cannot get away: what ends there is the whole circle. -/
theorem EndsAt.eq_of_isPeriodicPt {p : Nat} (hp : 0 < p)
    (hw : Function.IsPeriodicPt (m.next offsets) p w) (h : m.EndsAt offsets w u) : u = w := by
  obtain ⟨k, rfl⟩ := exists_iterate_next h.reached
  -- some way round the circle is at least as long as the way to the end
  have hround : (m.next offsets)^[k * p] w = w := hw.const_mul k
  have hlong : k * p = k * p - k + k := (Nat.sub_add_cancel (Nat.le_mul_of_pos_right k hp)).symm
  rw [hlong, Function.iterate_add_apply, (h.isFixedPt.iterate _).eq] at hround
  exact hround

/-- A chain that repeats itself and never ends is a circle. -/
theorem transGen_of_isPeriodicPt {p : Nat} (hp : 0 < p)
    (hw : Function.IsPeriodicPt (m.next offsets) p w) (h : ¬ ∃ u, m.EndsAt offsets w u) :
    TransGen (m.Adjusts offsets) w w := by
  have hstep : m.Adjusts offsets w (m.next offsets w) :=
    adjusts_next (by_contra fun hend => h ⟨w, .refl, not_exists.1 hend⟩)
  -- one step, and then the rest of the way round
  have hrest := reflTransGen_iterate_next m offsets (m.next offsets w) (p - 1)
  rw [← Function.iterate_succ_apply, Nat.succ_eq_add_one, Nat.sub_add_cancel hp, hw.eq] at hrest
  exact .head' hstep hrest

/-! ## The walk in a closed module -/

namespace IsClosed

variable (hm : m.IsClosed)

include hm

theorem within_next (hv : v.Within m) : (m.next offsets v).Within m := by
  obtain ⟨x, hx⟩ := exists_value hv
  cases hk : x.kind.adjusted? offsets with
  | none => simpa [next, hx, hk] using hv
  | some w => simpa [next, hx, hk] using (hm.within_of_value hx).adjusted hk

theorem within_iterate_next (hv : v.Within m) (n : Nat) : ((m.next offsets)^[n] v).Within m := by
  induction n with
  | zero => exact hv
  | succ n ih =>
    rw [Function.iterate_succ_apply']
    exact hm.within_next ih

/-- A walk answers with the value that many steps down the chain. -/
theorem stripWithin_eq (n : Nat) (hv : v.Within m) :
    m.stripWithin offsets n v = .ok ((m.next offsets)^[n] v) := by
  induction n generalizing v with
  | zero => rfl
  | succ n ih =>
    obtain ⟨x, hx⟩ := exists_value hv
    have hnext : (m.next offsets v).Within m := hm.within_next hv
    rw [Function.iterate_succ_apply]
    cases hk : x.kind.adjusted? offsets with
    | none =>
      -- the chain is at its end, where it stands still
      have hfix : Function.IsFixedPt (m.next offsets) v := by
        simp [Function.IsFixedPt, next, hx, hk]
      rw [hfix.eq, (hfix.iterate n).eq]
      simp [stripWithin, hx, hk, bind, Except.bind, pure, Except.pure]
    | some w =>
      have hw : m.next offsets v = w := by simp [next, hx, hk]
      rw [← ih hnext, hw]
      simp [stripWithin, hx, hk, bind, Except.bind]

/-- Among more values of a chain than there are values, two are the same. -/
theorem exists_repetition (offsets : Bool) (hv : v.Within m) :
    ∃ i j, i < j ∧ j ≤ m.values.size ∧ (m.next offsets)^[i] v = (m.next offsets)^[j] v := by
  let place : Fin (m.values.size + 1) → Fin m.values.size :=
    fun i => ⟨((m.next offsets)^[i] v).index, hm.within_iterate_next hv i⟩
  obtain ⟨i, j, hne, heq⟩ := Fintype.exists_ne_map_eq_of_card_lt place (by simp)
  have hplace : (place i).val = (place j).val := by rw [heq]
  have hsame : (m.next offsets)^[i] v = (m.next offsets)^[j] v := EntryId.ext_index hplace
  rcases Nat.lt_or_gt_of_ne (fun h => hne (Fin.ext h)) with hlt | hlt
  · exact ⟨i, j, hlt, Nat.le_of_lt_succ j.isLt, hsame⟩
  · exact ⟨j, i, hlt, Nat.le_of_lt_succ i.isLt, hsame.symm⟩

/-- Where the walk is cut off, the chain repeats itself. -/
theorem isPeriodicPt_stripped (offsets : Bool) (hv : v.Within m) : ∃ p, 0 < p ∧
    Function.IsPeriodicPt (m.next offsets) p ((m.next offsets)^[m.values.size + 1] v) := by
  obtain ⟨i, j, hij, hj, heq⟩ := hm.exists_repetition offsets hv
  have hperiod : Function.IsPeriodicPt (m.next offsets) (j - i) ((m.next offsets)^[i] v) := by
    show (m.next offsets)^[j - i] _ = _
    rw [← Function.iterate_add_apply, Nat.sub_add_cancel hij.le, heq]
  -- the walk is cut off past the first of the two
  have hpast : m.values.size + 1 = m.values.size + 1 - i + i := by omega
  refine ⟨j - i, by omega, ?_⟩
  rw [hpast, Function.iterate_add_apply]
  exact hperiod.apply_iterate _

end IsClosed

/-! ## Stripping -/

/-- What is left of `v` when its adjustments are stripped: a value of the chain from `v`, which is
its end if it has one, and lies on a circle of it if it has none. -/
structure Strips (m : Module) (offsets : Bool) (v w : ValueId) : Prop where
  reached : ReflTransGen (m.Adjusts offsets) v w
  ends : ∀ u, m.EndsAt offsets v u → w = u
  circles : (¬ ∃ u, m.EndsAt offsets v u) → TransGen (m.Adjusts offsets) w w

/-- Of the two values that one chain reaches, one comes before the other. -/
theorem reaches_or_reaches (hu : ReflTransGen (m.Adjusts offsets) v u)
    (hw : ReflTransGen (m.Adjusts offsets) v w) :
    ReflTransGen (m.Adjusts offsets) u w ∨ ReflTransGen (m.Adjusts offsets) w u :=
  ReflTransGen.total_of_right_unique
    (fun _ _ _ hb hc => hb.next_eq.symm.trans hc.next_eq) hu hw

/-- A chain that ends does so behind each of its values. -/
theorem EndsAt.of_reaches (h : m.EndsAt offsets v u)
    (hw : ReflTransGen (m.Adjusts offsets) v w) : m.EndsAt offsets w u := by
  refine ⟨?_, h.last⟩
  rcases reaches_or_reaches hw h.reached with hwu | huw
  · exact hwu
  · -- nothing comes after the end
    rcases huw.cases_head with rfl | ⟨x, hx, _⟩
    · exact .refl
    · exact absurd hx (h.last x)

theorem IsClosed.exists_strips (hm : m.IsClosed) (offsets : Bool) (hv : v.Within m) :
    ∃ w, m.strip offsets v = .ok w ∧ m.Strips offsets v w := by
  obtain ⟨p, hp, hw⟩ := hm.isPeriodicPt_stripped offsets hv
  have hreached := reflTransGen_iterate_next m offsets v (m.values.size + 1)
  refine ⟨_, hm.stripWithin_eq _ hv, hreached, fun u hu => ?_, fun hnone => ?_⟩
  · exact ((hu.of_reaches hreached).eq_of_isPeriodicPt hp hw).symm
  · exact transGen_of_isPeriodicPt hp hw
      fun ⟨u, hu⟩ => hnone ⟨u, hreached.trans hu.reached, hu.last⟩

/-- Values of one chain that ends are stripped to the same value. -/
theorem IsClosed.strip_eq_of_reaches (hm : m.IsClosed) (hv : v.Within m) (hw : w.Within m)
    (hreach : ReflTransGen (m.Adjusts offsets) v w) (hu : m.EndsAt offsets v u) :
    m.strip offsets w = m.strip offsets v := by
  obtain ⟨x, hx, hsx⟩ := hm.exists_strips offsets hv
  obtain ⟨y, hy, hsy⟩ := hm.exists_strips offsets hw
  rw [hx, hy, hsx.ends u hu, hsy.ends u (hu.of_reaches hreach)]

theorem IsClosed.within_of_reaches (hm : m.IsClosed) (hv : v.Within m)
    (h : ReflTransGen (m.Adjusts offsets) v w) : w.Within m := by
  obtain ⟨n, rfl⟩ := exists_iterate_next h
  exact hm.within_iterate_next hv n

/-- **Stripping.** In a closed module every value can be stripped, of casts and aliases and of
in-bounds offsets as well. If the chain of its adjustments ends, the outcome is its end, however
long it is, and stripping that once more changes nothing; if it never ends, the outcome lies on the
circle that the chain runs into. If the chain with offsets ends, it makes no difference whether
casts are stripped before. -/
theorem IsClosed.strips (hm : m.IsClosed) (hv : v.Within m) :
    (∃ w, m.stripCasts v = .ok w ∧ m.Strips false v w ∧
      ((∃ u, m.EndsAt false v u) → m.stripCasts w = .ok w)) ∧
    (∃ w, m.stripOffsets v = .ok w ∧ m.Strips true v w ∧
      ((∃ u, m.EndsAt true v u) → m.stripOffsets w = .ok w)) ∧
    ((∃ u, m.EndsAt true v u) →
      ∃ w, m.stripCasts v = .ok w ∧ m.stripOffsets w = m.stripOffsets v) := by
  have hboth : ∀ offsets, ∃ w, m.strip offsets v = .ok w ∧ m.Strips offsets v w ∧
      ((∃ u, m.EndsAt offsets v u) → m.strip offsets w = .ok w) := by
    intro offsets
    obtain ⟨w, hw, hs⟩ := hm.exists_strips offsets hv
    refine ⟨w, hw, hs, fun ⟨u, hu⟩ => ?_⟩
    rw [hm.strip_eq_of_reaches hv (hm.within_of_reaches hv hs.reached) hs.reached hu, hw]
  refine ⟨hboth false, hboth true, fun ⟨u, hu⟩ => ?_⟩
  obtain ⟨w, hw, hs, _⟩ := hboth false
  -- the casts are the first part of the chain with offsets
  have hreach : ReflTransGen (m.Adjusts true) v w :=
    hs.reached.lift id fun _ _ h => h.with_offsets
  exact ⟨w, hw, hm.strip_eq_of_reaches hv (hm.within_of_reaches hv hreach) hreach hu⟩

/-- A global `%0` with an alias `%1` and an offset `%2` of the alias, and two aliases of each
other. -/
def windings : Module :=
  ⟨"windings", #[], #[], #[⟨.global, .ptr 0, some "g"⟩, ⟨.aliasOf ⟨0⟩, .ptr 0, some "a"⟩,
    ⟨.expr (.getElementPtr ⟨1⟩ true), .ptr 0, none⟩, ⟨.aliasOf ⟨4⟩, .ptr 0, some "x"⟩,
    ⟨.aliasOf ⟨3⟩, .ptr 0, some "y"⟩], [⟨0⟩]⟩

/-- The offset is stripped down to the global, and of two aliases of each other one is left. -/
theorem windings_strips : windings.IsClosed ∧
    windings.stripOffsets ⟨2⟩ = .ok ⟨0⟩ ∧
    ∃ w, windings.stripCasts ⟨3⟩ = .ok w ∧ TransGen (windings.Adjusts false) w w := by
  have hclosed : windings.IsClosed := dangling?_eq_none_iff.1 (by decide +kernel)
  have hend : windings.EndsAt true ⟨2⟩ ⟨0⟩ :=
    { reached := .head ⟨_, rfl, .offset _ rfl⟩ (.single ⟨_, rfl, .aliasOf _⟩)
      last := by
        rintro u ⟨x, hx, hu⟩
        cases hx
        cases hu }
  -- from an alias of the circle, only the two are reached
  have hround : ∀ u, ReflTransGen (windings.Adjusts false) ⟨3⟩ u →
      windings.Adjusts false u ⟨4⟩ ∨ windings.Adjusts false u ⟨3⟩ := by
    intro u hu
    induction hu with
    | refl => exact .inl ⟨_, rfl, .aliasOf _⟩
    | tail _ hstep ih =>
      rcases ih with h | h
      · rw [← hstep.next_eq, h.next_eq]
        exact .inr ⟨_, rfl, .aliasOf _⟩
      · rw [← hstep.next_eq, h.next_eq]
        exact .inl ⟨_, rfl, .aliasOf _⟩
  have hnone : ¬ ∃ u, windings.EndsAt false ⟨3⟩ u := by
    rintro ⟨u, hu⟩
    rcases hround u hu.reached with h | h
    · exact hu.last _ h
    · exact hu.last _ h
  obtain ⟨_, ⟨w, hw, hs, _⟩, _⟩ := hclosed.strips (v := ⟨2⟩) (by decide)
  obtain ⟨⟨c, hc, hcircle, _⟩, _⟩ := hclosed.strips (v := ⟨3⟩) (by decide)
  exact ⟨hclosed, by rw [hw, hs.ends _ hend], c, hc, hcircle.circles hnone⟩

end Module

end Sdg
