import Sdg.Proofs.Rules
import Sdg.Proofs.Twins.Likeness

/-!
# Work on registries that are alike

Two pieces of work are alike if they do the same to registries that are alike: both end with answers
that correspond and leave registries that are alike, or both end in faults that differ in the names
of nodes and graphs alone. Nothing is said where one of them is cut off, since the bounds of the
recursions depend on how many graphs were ever made. There is one rule for each way in which work is
put together and one for each piece that everything else is made of.
-/

namespace Sdg

namespace Work

variable {ν : Naming} {ρ : Likeness} {α α' β β' σ σ' : Type} {r s : Registry}

/-- How two pieces of work end. -/
inductive Ends (ν : Naming) (Q : α → β → Registry → Registry → Prop) :
    Except Fault α × Workspace → Except Fault β × Workspace → Prop where
  | ok {a : α} {b : β} {t u : Workspace} : Q a b t.registry u.registry →
      Ends ν Q (.ok a, t) (.ok b, u)
  | fault {f f' : Fault} {t u : Workspace} : f.Like ν f' → Ends ν Q (.error f, t) (.error f', u)
  | cutLeft {t : Workspace} {p : Except Fault β × Workspace} : Ends ν Q (.error .exhausted, t) p
  | cutRight {p : Except Fault α × Workspace} {u : Workspace} : Ends ν Q p (.error .exhausted, u)

/-- Whatever was reported before, `w` on `r` and `w'` on `s` end as `Q` demands, or in faults that
correspond, or one of them is cut off. -/
def Both (ν : Naming) (Q : α → β → Registry → Registry → Prop) (w : Work α) (w' : Work β)
    (r s : Registry) : Prop :=
  ∀ es es', Ends ν Q (w.run.run ⟨r, es⟩) (w'.run.run ⟨s, es'⟩)

/-- On registries that are alike the two pieces of work have answers in `R` and leave such. -/
def Alike (ρ : Likeness) (R : α → β → Prop) (w : Work α) (w' : Work β) : Prop :=
  ∀ r s, ρ.Holds r s → Both ρ (fun a b t u => R a b ∧ ρ.Holds t u) w w' r s

/-! ## Composition -/

namespace Both

variable {Q : β → β' → Registry → Registry → Prop} {w : Work α} {w' : Work α'}

theorem pure {b : β} {b' : β'} (h : Q b b' r s) : Both ν Q (pure b) (pure b') r s :=
  fun _ _ => .ok h

theorem bind {P : α → α' → Registry → Registry → Prop} {k : α → Work β} {k' : α' → Work β'}
    (hw : Both ν P w w' r s) (hk : ∀ a a' t u, P a a' t u → Both ν Q (k a) (k' a') t u) :
    Both ν Q (w >>= k) (w' >>= k') r s := by
  intro es es'
  have hends := hw es es'
  rw [ExceptT.run_bind, StateT.run_bind, ExceptT.run_bind, StateT.run_bind]
  revert hends
  generalize w.run.run ⟨r, es⟩ = p
  generalize w'.run.run ⟨s, es'⟩ = p'
  intro hends
  cases hends with
  | @ok a a' t u hP => exact hk a a' t.registry u.registry hP t.events u.events
  | fault hf => exact .fault hf
  | cutLeft => exact .cutLeft
  | cutRight => exact .cutRight

theorem mono {P : β → β' → Registry → Registry → Prop} {w : Work β} {w' : Work β'}
    (h : Both ν P w w' r s) (hPQ : ∀ b b' t u, P b b' t u → Q b b' t u) : Both ν Q w w' r s := by
  intro es es'
  have hends := h es es'
  revert hends
  generalize w.run.run ⟨r, es⟩ = p
  generalize w'.run.run ⟨s, es'⟩ = p'
  intro hends
  cases hends with
  | ok hP => exact .ok (hPQ _ _ _ _ hP)
  | fault hf => exact .fault hf
  | cutLeft => exact .cutLeft
  | cutRight => exact .cutRight

/-- What is known of each piece by itself is known of both. -/
theorem of_wp {P : β → Registry → Prop} {P' : β' → Registry → Prop} {w : Work β} {w' : Work β'}
    (hw : wp (fun _ => False) w P r) (hw' : wp (fun _ => False) w' P' s) :
    Both ν (fun b b' t u => P b t ∧ P' b' u) w w' r s := by
  unfold wp at hw hw'
  intro es es'
  have hrun := hw es
  have hrun' := hw' es'
  revert hrun hrun'
  rcases w.run.run ⟨r, es⟩ with ⟨f | b, t⟩
  · exact fun hf => hf.elim
  rcases w'.run.run ⟨s, es'⟩ with ⟨f | b', u⟩
  · exact fun _ hf => hf.elim
  exact fun hP hP' => .ok ⟨hP, hP'⟩

theorem report {x x' : Event} {k : Unit → Work β} {k' : Unit → Work β'}
    (h : Both ν Q (k ()) (k' ()) r s) : Both ν Q (report x >>= k) (Work.report x' >>= k') r s :=
  fun es es' => h (x :: es) (x' :: es')

theorem modifyRegistry {f f' : Registry → Registry} {k : Unit → Work β} {k' : Unit → Work β'}
    (h : Both ν Q (k ()) (k' ()) (f r) (f' s)) :
    Both ν Q (modifyRegistry f >>= k) (Work.modifyRegistry f' >>= k') r s :=
  fun es es' => h es es'

theorem registry {k : Registry → Work β} {k' : Registry → Work β'}
    (h : Both ν Q (k r) (k' s) r s) : Both ν Q (registry >>= k) (Work.registry >>= k') r s :=
  fun es es' => h es es'

end Both

namespace Alike

variable {R : α → α' → Prop} {S : β → β' → Prop} {w : Work α} {w' : Work α'}

theorem pure {a : α} {a' : α'} (h : R a a') : Alike ρ R (pure a) (pure a') :=
  fun _ _ hrs => .pure ⟨h, hrs⟩

theorem throw {f f' : Fault} (h : f.Like ρ f') :
    Alike ρ R (throw f : Work α) (throw f' : Work α') := fun _ _ _ _ _ => .fault h

theorem cutLeft : Alike ρ R (MonadExcept.throw Fault.exhausted : Work α) w' :=
  fun _ _ _ _ _ => .cutLeft

theorem cutRight : Alike ρ R w (MonadExcept.throw Fault.exhausted : Work α') :=
  fun _ _ _ _ _ => .cutRight

theorem bind {k : α → Work β} {k' : α' → Work β'} (hw : Alike ρ R w w')
    (hk : ∀ a a', R a a' → Alike ρ S (k a) (k' a')) : Alike ρ S (w >>= k) (w' >>= k') :=
  fun r s hrs => .bind (hw r s hrs) fun a a' t u h => hk a a' h.1 t u h.2

/-- After a fault nothing is done. -/
theorem throwBind {f f' : Fault} {k : α → Work β} {k' : α' → Work β'} (h : f.Like ρ f') :
    Alike ρ S (MonadExcept.throw f >>= k) (MonadExcept.throw f' >>= k') :=
  fun _ _ _ _ _ => .fault h

/-- Work with the same answer, and the rest. -/
theorem same {v v' : Work α} {k : α → Work β} {k' : α → Work β'} (hv : Alike ρ Eq v v')
    (hk : ∀ a, Alike ρ S (k a) (k' a)) : Alike ρ S (v >>= k) (v' >>= k') :=
  bind hv fun a _ ha => ha ▸ hk a

/-- Work without an answer, and the rest. -/
theorem seq {v v' : Work Unit} {k : Unit → Work β} {k' : Unit → Work β'} (hv : Alike ρ Eq v v')
    (hk : Alike ρ S (k ()) (k' ())) : Alike ρ S (v >>= k) (v' >>= k') :=
  bind hv fun _ _ _ => hk

theorem ite {c c' : Prop} [Decidable c] [Decidable c'] {v : Work α} {v' : Work α'} (hc : c ↔ c')
    (hw : Alike ρ R w w') (hv : Alike ρ R v v') :
    Alike ρ R (if c then w else v) (if c' then w' else v') := by
  by_cases hp : c
  · rwa [if_pos hp, if_pos (hc.1 hp)]
  · rwa [if_neg hp, if_neg fun hp' => hp (hc.2 hp')]

/-- Something that is done on a condition, with the rest of the work. -/
theorem when {c c' : Prop} [Decidable c] [Decidable c'] {v v' : Work Unit} {k : Unit → Work β}
    {k' : Unit → Work β'} (hc : c ↔ c') (hv : Alike ρ Eq v v')
    (hk : Alike ρ S (k ()) (k' ())) :
    Alike ρ S (if c then v >>= k else k ()) (if c' then v' >>= k' else k' ()) :=
  ite hc (seq hv hk) hk

/-- Loops over lists whose elements correspond. -/
theorem forIn {P : α → α' → Prop} {l : List α} {l' : List α'} {b : σ}
    {body : α → σ → Work (ForInStep σ)} {body' : α' → σ → Work (ForInStep σ)}
    (hl : List.Forall₂ P l l')
    (hbody : ∀ x x' b, P x x' → Alike ρ Eq (body x b) (body' x' b)) :
    Alike ρ Eq (forIn l b body) (forIn l' b body') := by
  induction hl generalizing b with
  | nil =>
    rw [List.forIn_nil, List.forIn_nil]
    exact pure rfl
  | cons hx _ ih =>
    rw [List.forIn_cons, List.forIn_cons]
    refine bind (hbody _ _ b hx) fun c c' hc => ?_
    subst hc
    cases c with
    | done b => exact pure rfl
    | yield b => exact ih

/-- Loops over the same list. -/
theorem loop {l : List α} {b : σ} {body body' : α → σ → Work (ForInStep σ)}
    (hbody : ∀ x b, Alike ρ Eq (body x b) (body' x b)) :
    Alike ρ Eq (ForIn.forIn l b body) (ForIn.forIn l b body') := by
  refine forIn (List.forall₂_same.2 fun _ _ => rfl) fun x x' b hx => ?_
  subst hx
  exact hbody x b

theorem mapM {l : List α} {l' : List α'} {v : α → Work β} {v' : α' → Work β'}
    (hl : List.Forall₂ R l l') (hv : ∀ x x', R x x' → Alike ρ S (v x) (v' x')) :
    Alike ρ (List.Forall₂ S) (l.mapM v) (l'.mapM v') := by
  induction hl with
  | nil =>
    rw [List.mapM_nil, List.mapM_nil]
    exact pure .nil
  | cons hx _ ih =>
    rw [List.mapM_cons, List.mapM_cons]
    exact bind (hv _ _ hx) fun _ _ hy => bind ih fun _ _ hys => pure (.cons hy hys)

/-- A test that comes out alike picks out the same elements of a list. -/
theorem filterM {l : List α} {p p' : α → Work Bool} (hp : ∀ x, Alike ρ Eq (p x) (p' x)) :
    Alike ρ Eq (l.filterM p) (l.filterM p') := by
  -- the elements that were picked out so far are kept in reverse order
  have hloop : ∀ l acc : List α,
      Alike ρ Eq (List.filterAuxM p l acc) (List.filterAuxM p' l acc) := by
    intro l
    induction l with
    | nil => exact fun acc => pure rfl
    | cons x l ih =>
      intro acc
      refine bind (hp x) fun b b' hb => ?_
      subst hb
      exact ih (cond b (x :: acc) acc)
  refine bind (hloop l []) fun xs xs' hxs => ?_
  subst hxs
  exact pure rfl

/-! ## Pieces -/

theorem report (x x' : Event) : Alike ρ Eq (report x) (Work.report x') :=
  fun _ _ hrs _ _ => .ok ⟨rfl, hrs⟩

theorem registry : Alike ρ (ρ.Holds) registry registry :=
  fun _ _ hrs _ _ => .ok ⟨hrs, hrs⟩

theorem modifyRegistry {f f' : Registry → Registry}
    (h : ∀ r s, ρ.Holds r s → ρ.Holds (f r) (f' s)) :
    Alike ρ Eq (modifyRegistry f) (Work.modifyRegistry f') :=
  fun r s hrs _ _ => .ok ⟨rfl, h r s hrs⟩

theorem ask (x : Except Missing α) : Alike ρ Eq (ask x) (Work.ask x) := by
  cases x with
  | ok a => exact pure rfl
  | error e => exact throw (.same trivial)

theorem require {f f' : Fault} {x : Option α} {x' : Option α'} (hx : Option.Rel R x x')
    (hf : f.Like ρ f') : Alike ρ R (require f x) (Work.require f' x') := by
  cases hx with
  | none => exact throw hf
  | some h => exact pure h

end Alike

-- From here on there are the rules alone.
attribute [irreducible] Both

end Work

end Sdg
