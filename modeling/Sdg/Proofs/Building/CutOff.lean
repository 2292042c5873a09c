import Sdg.Proofs.Building.Requests

/-!
# Recursions that are cut off

Nested builds and nested propagation are given as work to call, and a bound on a recursion shows
only in that the work that is called may be cut off. So whatever is built from work that is cut off
earlier is itself cut off earlier, and runs the same otherwise. With that, work that is never cut
off does not depend on the bounds.
-/

namespace Sdg

namespace Work

open Registry

variable {α β σ : Type}

/-- Whether `w` runs like `w'` as long as it is not cut off. -/
def CutOff (w w' : Work α) : Prop :=
  ∀ s, (∃ t, w.run.run s = (.error .exhausted, t)) ∨ w.run.run s = w'.run.run s

/-- Whether `w` and `w'` run the same on the registry `r`, whatever was reported before. -/
def Agree (r : Registry) (w w' : Work α) : Prop :=
  ∀ es, w.run.run ⟨r, es⟩ = w'.run.run ⟨r, es⟩

namespace CutOff

theorem refl (w : Work α) : CutOff w w := fun _ => .inr rfl

theorem exhausted (w : Work α) : CutOff (throw .exhausted) w := fun s => .inl ⟨s, rfl⟩

theorem bind {w w' : Work α} {k k' : α → Work β} (hw : CutOff w w')
    (hk : ∀ a, CutOff (k a) (k' a)) : CutOff (w >>= k) (w' >>= k') := by
  intro s
  simp only [ExceptT.run_bind, StateT.run_bind]
  rcases hw s with ⟨t, ht⟩ | hs
  · left
    rw [ht]
    exact ⟨t, rfl⟩
  · rw [hs]
    rcases w'.run.run s with ⟨e | a, t⟩
    · exact .inr rfl
    · exact hk a t

theorem ite {c : Prop} [Decidable c] {w w' v v' : Work α} (hw : CutOff w w') (hv : CutOff v v') :
    CutOff (if c then w else v) (if c then w' else v') := by
  split
  · exact hw
  · exact hv

theorem forIn {l : List α} {b : β} {f f' : α → β → Work (ForInStep β)}
    (h : ∀ a b, CutOff (f a b) (f' a b)) : CutOff (forIn l b f) (forIn l b f') := by
  induction l generalizing b with
  | nil => exact refl _
  | cons a l ih =>
    rw [List.forIn_cons, List.forIn_cons]
    refine bind (h a b) fun o => ?_
    cases o with
    | done b => exact refl _
    | yield b => exact ih

/-- Work that is not cut off on a registry runs the same with higher bounds. -/
theorem agree {w w' : Work α} {Q : α → Registry → Prop} {r : Registry} (h : CutOff w w')
    (hw : wp Fault.Genuine w Q r) : Agree r w w' := by
  intro es
  rcases h ⟨r, es⟩ with ⟨t, ht⟩ | hs
  · unfold wp at hw
    have hno := hw es
    rw [ht] at hno
    exact absurd rfl hno
  · exact hs

end CutOff

/-! ## Propagation -/

section

variable {m : Module} {g h : GraphId} {nested nested' : GraphId → Work Unit}

theorem cutOff_absorbWith (hn : ∀ g, CutOff (nested g) (nested' g)) :
    CutOff (absorbWith nested m g h) (absorbWith nested' m g h) := by
  unfold absorbWith
  refine .bind (.refl _) fun _ => .bind (.refl _) fun _ => .bind (.refl _) fun _ => ?_
  refine .bind (.refl _) fun _ => .ite (.bind (.refl _) fun _ => hn g) (.refl _)

theorem cutOff_propagateRound (hn : ∀ g, CutOff (nested g) (nested' g)) :
    CutOff (propagateRound nested m g) (propagateRound nested' m g) := by
  unfold propagateRound
  refine .bind (.refl _) fun _ => .bind (.forIn fun call _ => .bind (.refl _) fun x => ?_)
    fun _ => .refl _
  cases x.graph? with
  | none => exact .refl _
  | some caller =>
    exact .bind (.refl _) fun _ => .bind (cutOff_absorbWith hn) fun _ => .refl _

theorem cutOff_propagateWithin {depth depth' : Nat} (hle : depth ≤ depth') (g : GraphId) :
    CutOff (propagateWithin m depth g) (propagateWithin m depth' g) := by
  induction depth generalizing depth' g with
  | zero => exact .exhausted _
  | succ depth ih =>
    obtain ⟨depth', rfl⟩ : ∃ d, depth' = d + 1 := ⟨depth' - 1, by omega⟩
    rw [propagateWithin_succ, propagateWithin_succ]
    exact cutOff_propagateRound fun g => ih (Nat.le_of_succ_le_succ hle) g

end

/-! ## Requests -/

section

variable {e : Setup} {m : Module} {g : GraphId} {b : BlockId} {call n : NodeId} {v callee : ValueId}
  {args : List ValueId} {f : FunctionId} {nested nested' : FunctionId → Work GraphId}
  (hn : ∀ f, CutOff (nested f) (nested' f))

include hn

theorem cutOff_linkCall : CutOff (linkCall nested m b call f) (linkCall nested' m b call f) := by
  unfold linkCall
  exact .bind (.refl _) fun _ => .bind (.refl _) fun _ => .bind (hn f) fun _ => .refl _

theorem cutOff_visitDirectCall :
    CutOff (visitDirectCall nested e g b call v f) (visitDirectCall nested' e g b call v f) := by
  unfold visitDirectCall
  have hlink : ∀ {k : Unit → Work Unit} (c : Prop) [Decidable c], CutOff
      (if c then linkCall nested e.program b call f >>= k else k ())
      (if c then linkCall nested' e.program b call f >>= k else k ()) := fun _ _ =>
    .ite (.bind (cutOff_linkCall hn) fun _ => .refl _) (.refl _)
  exact .bind (.refl _) fun x => .ite (.bind (.refl _) fun _ => hlink _) (hlink _)

theorem cutOff_visitPointee {p : Pointee} :
    CutOff (visitPointee nested m b call v args p) (visitPointee nested' m b call v args p) := by
  unfold visitPointee
  have hfits : ∀ (f : FunctionId) (x : Function) (fits : Bool), CutOff
      (if fits then linkCall nested m b call f >>= fun _ => pure fits
        else report (.skipping x.name v) >>= fun _ => pure fits)
      (if fits then linkCall nested' m b call f >>= fun _ => pure fits
        else report (.skipping x.name v) >>= fun _ => pure fits) := fun f x fits =>
    .ite (.bind (cutOff_linkCall hn) fun _ => .refl _) (.refl _)
  refine .ite (.refl _) (.bind (.refl _) fun t => .bind (.refl _) fun f? => ?_)
  cases f? with
  | none => exact .refl _
  | some f =>
    refine .bind (.refl _) fun x => ?_
    exact .ite (.bind (.refl _) fun fits => hfits f x fits)
      (.bind (.refl _) fun fits => hfits f x fits)

theorem cutOff_visitIndirectCall : CutOff (visitIndirectCall nested e g b call v callee args)
    (visitIndirectCall nested' e g b call v callee args) := by
  unfold visitIndirectCall
  cases e.pointsTo? with
  | none => exact .refl _
  | some pointsTo =>
    exact .bind (.forIn fun p _ => .bind (cutOff_visitPointee hn) fun _ => .refl _) fun _ => .refl _

theorem cutOff_visitCall : CutOff (visitCall nested e g b call v callee args)
    (visitCall nested' e g b call v callee args) := by
  unfold visitCall
  refine .bind (.refl _) fun _ => .bind (.refl _) fun _ => .bind (.refl _) fun f? => ?_
  cases f? with
  | none => exact cutOff_visitIndirectCall hn
  | some f => exact cutOff_visitDirectCall hn

theorem cutOff_visitInstruction {i : Instruction} :
    CutOff (visitInstruction nested e g b n v i) (visitInstruction nested' e g b n v i) := by
  unfold visitInstruction
  split
  · exact cutOff_visitCall hn
  all_goals exact .refl _

theorem cutOff_visitBlock : CutOff (visitBlock nested e g b) (visitBlock nested' e g b) := by
  unfold visitBlock
  have hvalue : ∀ v, CutOff (visitValue nested e g b v) (visitValue nested' e g b v) := by
    intro v
    unfold visitValue
    exact .bind (.refl _) fun _ => .bind (.refl _) fun _ => .bind (.refl _) fun _ =>
      .bind (.refl _) fun _ => cutOff_visitInstruction hn
  have hvalues : ∀ x : Block, CutOff (do
      updateGraph g fun y => { y with units := y.units.insert b (.fresh (.block b)) }
      for v in x.instructions do
        visitValue nested e g b v) (do
      updateGraph g fun y => { y with units := y.units.insert b (.fresh (.block b)) }
      for v in x.instructions do
        visitValue nested' e g b v) := fun x =>
    .bind (.refl _) fun _ => .bind (.forIn fun v _ => .bind (hvalue v) fun _ => .refl _)
      fun _ => .refl _
  exact .bind (.refl _) fun x => .ite (.bind (.refl _) fun _ => hvalues x) (hvalues x)

theorem cutOff_buildWith : CutOff (buildWith nested e g) (buildWith nested' e g) := by
  unfold buildWith
  refine .bind (.refl _) fun _ => .bind (.refl _) fun x => .ite (.refl _) ?_
  refine .bind (.refl _) fun _ => .bind (.refl _) fun _ => .bind (.refl _) fun _ =>
    .bind (.refl _) fun _ => .bind (.refl _) fun _ => .bind ?_ fun _ => .refl _
  exact .forIn fun b _ => .bind (cutOff_visitBlock hn) fun _ => .refl _

theorem cutOff_requestRound : CutOff (requestRound nested e f) (requestRound nested' e f) := by
  unfold requestRound
  refine .bind (.refl _) fun r => ?_
  cases r.lookup? f with
  | some g => exact .refl _
  | none => exact .bind (.refl _) fun g => .bind (cutOff_buildWith hn) fun _ => .refl _

end

theorem cutOff_requestWithin {e : Setup} {depth depth' : Nat} (hle : depth ≤ depth')
    (f : FunctionId) : CutOff (requestWithin e depth f) (requestWithin e depth' f) := by
  induction depth generalizing depth' f with
  | zero => exact .exhausted _
  | succ depth ih =>
    obtain ⟨depth', rfl⟩ : ∃ d, depth' = d + 1 := ⟨depth' - 1, by omega⟩
    rw [requestWithin_succ, requestWithin_succ]
    exact cutOff_requestRound fun f => ih (Nat.le_of_succ_le_succ hle) f

/-! ## Bounds do not matter -/

/-- Work that is refused on registries that do not pass a test. -/
def guarded (P : Registry → Prop) [DecidablePred P] (w : Work α) : Work α := do
  if P (← registry) then w else throw .exhausted

/-- Work that is refused unless less than `k` is left by a measure. -/
def below (left : Registry → Nat) (k : Nat) (w : Work α) : Work α := guarded (left · < k) w

section

variable {P : Registry → Prop} [DecidablePred P] {w w' : Work α} {r : Registry}

theorem run_guarded (es : List Event) : (guarded P w).run.run ⟨r, es⟩ =
    if P r then w.run.run ⟨r, es⟩ else (.error .exhausted, ⟨r, es⟩) := by
  show (if P r then w else throw .exhausted : Work α).run.run ⟨r, es⟩ = _
  split <;> rfl

theorem agree_guarded (hr : P r) : Agree r (guarded P w) w := fun es => by
  rw [run_guarded, if_pos hr]

/-- A guard cuts work off where it refuses it. -/
theorem cutOff_guarded (h : ∀ r, P r → Agree r w w') : CutOff (guarded P w) w' := by
  intro s
  obtain ⟨r, es⟩ := s
  rw [run_guarded]
  by_cases hr : P r
  · rw [if_pos hr]
    exact .inr (h r hr es)
  · rw [if_neg hr]
    exact .inl ⟨_, rfl⟩

end

theorem wp_guarded {P : Registry → Prop} [DecidablePred P] {w : Work α} {Q : α → Registry → Prop}
    {r : Registry} (hr : P r) (hw : wp Fault.Genuine w Q r) :
    wp Fault.Genuine (guarded P w) Q r :=
  wp_registry (by rwa [if_pos hr])

section

variable {r s : Registry} {w w' w'' : Work α}

theorem Agree.symm (h : Agree r w w') : Agree r w' w := fun es => (h es).symm

theorem Agree.trans (h : Agree r w w') (h' : Agree r w' w'') : Agree r w w'' := fun es =>
  (h es).trans (h' es)

theorem agree_registry {k : Registry → Work α} : Agree r (registry >>= k) (k r) := fun _ => rfl

end

variable {e : Setup} {r : Registry} {g h : GraphId} {f : FunctionId} {depth : Nat}

/-- Propagation bounded by `depth` is propagation, unless there is more room than that. -/
theorem agree_propagateWithin (hr : r.Orderly e.program) (hd : r.room e.program < depth) :
    Agree r (propagateWithin e.program depth g) (propagate e.program g) := by
  -- any two such bounds are as good as the higher one
  have hany : ∀ {d d'}, r.room e.program < d → r.room e.program < d' →
      Agree r (propagateWithin e.program d g) (propagateWithin e.program d' g) := by
    intro d d' hd hd'
    have hmax := (cutOff_propagateWithin (Nat.le_max_left d d') g).agree
      (propagateWithin_spec e d g r hr hd)
    have hmax' := (cutOff_propagateWithin (Nat.le_max_right d d') g).agree
      (propagateWithin_spec e d' g r hr hd')
    exact hmax.trans hmax'.symm
  have hown : Agree r (propagate e.program g)
      (propagateWithin e.program (r.graphs.next * e.program.values.size + 1) g) :=
    agree_registry (k := fun r =>
      propagateWithin e.program (r.graphs.next * e.program.values.size + 1) g)
  exact (hany hd (Nat.lt_succ_of_le (r.room_le e.program))).trans hown.symm

/-- What is nested in propagation finds less room than there was. -/
theorem propagates_below (k : Nat) : Propagates e k fun g =>
    below (room e.program) k (propagate e.program g) := fun _ _ hs hk =>
  wp_guarded hk (propagate_spec hs)

/-- Absorption calls propagation only where there is less room. -/
theorem agree_absorb (hr : r.Orderly e.program) (hl : r.Links g h) : Agree r
    (absorbWith (fun k => below (room e.program) (r.room e.program) (propagate e.program k))
      e.program g h) (absorb e.program g h) :=
  (cutOff_absorbWith fun _ => cutOff_guarded fun _ _ _ => rfl).agree
    (absorbWith_spec (propagates_below _) hr (Nat.le_refl _) hl)

/-- Propagation is a round in which propagation is called again, only where there is less room. -/
theorem agree_propagate (hr : r.Orderly e.program) : Agree r
    (propagateRound (fun k => below (room e.program) (r.room e.program) (propagate e.program k))
      e.program g) (propagate e.program g) := by
  classical
  -- on orderly registries nested propagation is bounded by the room that there was
  let P : Registry → Prop := fun s => s.Orderly e.program ∧ s.room e.program < r.room e.program
  let nested : GraphId → Work Unit := fun k => guarded P (propagate e.program k)
  have hnested : Propagates e (r.room e.program) nested := fun _ _ hs hk =>
    wp_guarded ⟨hs, hk⟩ (propagate_spec hs)
  have hround := propagateRound_spec (g := g) hnested hr (Nat.le_refl _)
  have hbelow : ∀ k, CutOff (nested k)
      (below (room e.program) (r.room e.program) (propagate e.program k)) := fun k =>
    cutOff_guarded fun s hs => (agree_guarded hs.2).symm
  have hwithin : ∀ k, CutOff (nested k) (propagateWithin e.program (r.room e.program) k) :=
    fun k => cutOff_guarded fun s hs => (agree_propagateWithin hs.1 hs.2).symm
  have h₁ := (cutOff_propagateRound (m := e.program) (g := g) hbelow).agree hround
  have h₂ := (cutOff_propagateRound (m := e.program) (g := g) hwithin).agree hround
  rw [← propagateWithin_succ] at h₂
  exact h₁.symm.trans (h₂.trans (agree_propagateWithin hr (Nat.lt_succ_self _)))

/-- A request bounded by `depth` is a request, unless more functions have no graph. -/
theorem agree_requestWithin (hr : r.Orderly e.program) (hd : r.pending e.program < depth) :
    Agree r (requestWithin e depth f) (request e f) := by
  have hany : ∀ {d d'}, r.pending e.program < d → r.pending e.program < d' →
      Agree r (requestWithin e d f) (requestWithin e d' f) := by
    intro d d' hd hd'
    have hmax := (cutOff_requestWithin (Nat.le_max_left d d') f).agree
      (requestWithin_spec e d f r hr hd)
    have hmax' := (cutOff_requestWithin (Nat.le_max_right d d') f).agree
      (requestWithin_spec e d' f r hr hd')
    exact hmax.trans hmax'.symm
  exact hany hd (Nat.lt_succ_of_le (r.pending_le e.program))

theorem requests_below (k : Nat) : Requests e k fun f =>
    below (pending e.program) k (request e f) := fun _ _ hs hk =>
  wp_guarded hk (request_spec hs)

/-- A build calls requests only where fewer functions have no graph than before its own graph was
registered. -/
theorem agree_buildWith (hr : r.Orderly e.program) (hf : r.lookup? f = none) :
    Agree (r.pushGraph (.fresh f))
      (buildWith (fun f => below (pending e.program) (r.pending e.program) (request e f)) e
        r.nextGraph) (buildWith (request e) e r.nextGraph) := by
  have hpush : Quiet e.program r (r.pushGraph (.fresh f)) := .graph hf
  have hg : (r.pushGraph (.fresh f)).graph? r.nextGraph = some (.fresh f) := by simp
  exact (cutOff_buildWith fun _ => cutOff_guarded fun _ _ _ => rfl).agree
    (buildWith_spec (requests_below _) (hr.change (.quiet hpush)) hg
      (pending_pushGraph_lt hf))

/-- A request is a round in which requests are called again, only where fewer functions have no
graph. -/
theorem agree_request (hr : r.Orderly e.program) : Agree r
    (requestRound (fun f => below (pending e.program) (r.pending e.program) (request e f)) e f)
    (request e f) := by
  have hround := requestRound_spec (f := f) (requests_below (e := e) _) hr (Nat.le_refl _)
  have hcut := (cutOff_requestRound (e := e) (f := f)
    fun h => cutOff_guarded fun _ _ _ => rfl).agree hround
  have hlt : r.pending e.program < e.program.functions.size + 2 :=
    Nat.lt_of_le_of_lt (r.pending_le e.program) (by omega)
  have hdeeper := agree_requestWithin (f := f) hr hlt
  rw [requestWithin_succ] at hdeeper
  exact hcut.trans hdeeper

end Work

end Sdg
