import Sdg.Proofs.Rules

/-!
# Maintained properties

A property of registries is maintained by a piece of work if it holds after the work whenever it
held before, or the work ends in a fault that is admitted. There is one rule for each way in which
work is put together, so a property that the pieces maintain is maintained by everything that is
made of them, and nested work may be assumed to maintain it too.
-/

namespace Sdg

/-- Every fault there is. -/
abbrev Fault.Any (_ : Fault) : Prop := True

namespace Work

variable {α β σ : Type} {bad : Fault → Prop} {P : Registry → Prop}

/-- The work leaves a registry with `P`, if it is started on one. -/
def Maintains (bad : Fault → Prop) (P : Registry → Prop) (w : Work α) : Prop :=
  ∀ r, P r → wp bad w (fun _ s => P s) r

namespace Maintains

theorem pure (a : α) : Maintains bad P (pure a : Work α) := fun _ hr => wp_pure hr

theorem throw {f : Fault} (hf : bad f) : Maintains bad P (throw f : Work α) :=
  fun _ _ => wp_throw hf

theorem bind {w : Work α} {k : α → Work β} (hw : Maintains bad P w)
    (hk : ∀ a, Maintains bad P (k a)) : Maintains bad P (w >>= k) :=
  fun r hr => wp_bind (hw r hr) fun a s hs => hk a s hs

theorem ite {c : Prop} [Decidable c] {w w' : Work α} (hw : c → Maintains bad P w)
    (hw' : ¬ c → Maintains bad P w') : Maintains bad P (if c then w else w') := by
  split
  · exact hw ‹_›
  · exact hw' ‹_›

/-- Something that is done on a condition, with the rest of the work. -/
theorem when {c : Prop} [Decidable c] {w : Work Unit} {k : Unit → Work β}
    (hw : c → Maintains bad P w) (hk : Maintains bad P (k ())) :
    Maintains bad P (if c then w >>= k else k ()) :=
  ite (fun hc => bind (hw hc) fun _ => hk) fun _ => hk

theorem forIn {l : List α} {b : σ} {body : α → σ → Work (ForInStep σ)}
    (h : ∀ x ∈ l, ∀ b, Maintains bad P (body x b)) : Maintains bad P (forIn l b body) := by
  -- the loop ends early or goes on, and maintains the property in either case
  induction l generalizing b with
  | nil =>
    rw [List.forIn_nil]
    exact pure b
  | cons x l ih =>
    rw [List.forIn_cons]
    refine bind (h x List.mem_cons_self b) fun c => ?_
    cases c with
    | done b => exact pure b
    | yield b => exact ih fun z hz => h z (List.mem_cons_of_mem _ hz)

theorem mapM {l : List α} {w : α → Work β} (h : ∀ x ∈ l, Maintains bad P (w x)) :
    Maintains bad P (l.mapM w) := by
  induction l with
  | nil =>
    rw [List.mapM_nil]
    exact pure []
  | cons x l ih =>
    rw [List.mapM_cons]
    refine bind (h x List.mem_cons_self) fun y => bind (ih fun z hz => ?_) fun ys => pure _
    exact h z (List.mem_cons_of_mem _ hz)

/-- A test that maintains the property picks out some of a list. -/
theorem filterM {l : List α} {p : α → Work Bool} (hp : ∀ a ∈ l, Maintains bad P (p a)) :
    Maintains bad P (l.filterM p) := by
  have hloop : ∀ (l acc : List α), (∀ a ∈ l, Maintains bad P (p a)) →
      Maintains bad P (List.filterAuxM p l acc) := by
    intro l
    induction l with
    | nil => exact fun acc _ => pure acc
    | cons a l ih =>
      intro acc hp
      exact bind (hp a List.mem_cons_self) fun _ =>
        ih _ fun a ha => hp a (List.mem_cons_of_mem _ ha)
  exact bind (hloop l [] hp) fun _ => pure _

/-- Work that only looks at the registry. -/
theorem of_reads {w : Work α} (h : ∀ r, wp bad w (fun _ s => s = r) r) : Maintains bad P w := by
  intro r hr
  refine wp_mono (h r) ?_
  intro _ s hs
  rwa [hs]

theorem report (x : Event) : Maintains bad P (report x) :=
  .of_reads fun _ => wp_last (wp_report (wp_pure rfl))

theorem registry : Maintains bad P registry :=
  .of_reads fun _ => wp_last (wp_registry (wp_pure rfl))

theorem ask {x : Except Missing α} (hbad : ∀ e, x = .error e → bad (.missing e)) :
    Maintains bad P (ask x) :=
  .of_reads fun _ => wp_last (wp_ask (fun _ _ => wp_pure rfl) hbad)

theorem require {fault : Fault} {x : Option α} (hbad : x = none → bad fault) :
    Maintains bad P (require fault x) :=
  .of_reads fun _ => wp_last (wp_require (fun _ _ => wp_pure rfl) hbad)

theorem graph {g : GraphId} (hbad : bad (.graphGone g)) : Maintains bad P (graph g) :=
  .of_reads fun _ => wp_last (wp_graph (fun _ _ => wp_pure rfl) fun _ => hbad)

theorem node {n : NodeId} (hbad : bad (.nodeGone n)) : Maintains bad P (node n) :=
  .of_reads fun _ => wp_last (wp_node (fun _ _ => wp_pure rfl) fun _ => hbad)

end Maintains

end Work

end Sdg
