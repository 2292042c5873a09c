import Mathlib.Data.List.Forall2
import Sdg.Proofs.Collection

/-!
# Related collections

Options, ordered sets and ordered maps whose elements correspond one by one, in the same order. What
is done to both alike leaves such collections, as long as each element has one that it corresponds
to.
-/

namespace Sdg

open Relator

/-! ## Options and lists -/

section

variable {κ α β : Type} {R : α → β → Prop} {a : α} {b : β}

theorem optionRel_of_eq_some {o : Option α} {o' : Option β} (h : Option.Rel R o o')
    (ho : o = some a) : ∃ b, o' = some b ∧ R a b := by
  subst ho
  cases h with
  | some h => exact ⟨_, rfl, h⟩

theorem optionRel_isSome {o : Option α} {o' : Option β} (h : Option.Rel R o o') :
    o.isSome = o'.isSome := by
  cases h <;> rfl

theorem optionRel_refl {R : α → α → Prop} (h : ∀ a, R a a) (o : Option α) : Option.Rel R o o := by
  cases o with
  | none => exact .none
  | some a => exact .some (h a)

/-- Options that are chosen alike. -/
theorem optionRel_ite {c c' : Prop} [Decidable c] [Decidable c'] {o p : Option α}
    {o' p' : Option β} (hc : c ↔ c') (h : Option.Rel R o o') (h' : ¬ c → Option.Rel R p p') :
    Option.Rel R (if c then o else p) (if c' then o' else p') := by
  by_cases hp : c
  · rwa [if_pos hp, if_pos (hc.1 hp)]
  · rw [if_neg hp, if_neg fun hp' => hp (hc.2 hp')]
    exact h' hp

theorem optionRel_map {γ δ : Type} {S : γ → δ → Prop} {f : α → γ} {f' : β → δ} {o : Option α}
    {o' : Option β} (h : Option.Rel R o o') (hf : ∀ a b, R a b → S (f a) (f' b)) :
    Option.Rel S (o.map f) (o'.map f') := by
  cases h with
  | none => exact .none
  | some h => exact .some (hf _ _ h)

theorem optionRel_bind {γ δ : Type} {S : γ → δ → Prop} {f : α → Option γ} {f' : β → Option δ}
    {o : Option α} {o' : Option β} (h : Option.Rel R o o')
    (hf : ∀ a b, R a b → Option.Rel S (f a) (f' b)) : Option.Rel S (o.bind f) (o'.bind f') := by
  cases h with
  | none => exact .none
  | some h => exact hf _ _ h

theorem optionRel_or {o p : Option α} {o' p' : Option β} (h : Option.Rel R o o')
    (h' : Option.Rel R p p') : Option.Rel R (o.or p) (o'.or p') := by
  cases h with
  | none => exact h'
  | some h => exact .some h

theorem forall₂_toList {o : Option α} {o' : Option β} (h : Option.Rel R o o') :
    List.Forall₂ R o.toList o'.toList := by
  cases h with
  | none => exact .nil
  | some h => exact .cons h .nil

/-- Lists whose elements correspond begin and end with such. -/
theorem optionRel_head? {l : List α} {l' : List β} (h : List.Forall₂ R l l') :
    Option.Rel R l.head? l'.head? := by
  cases h with
  | nil => exact .none
  | cons h _ => exact .some h

theorem optionRel_getLast? {l : List α} {l' : List β} (h : List.Forall₂ R l l') :
    Option.Rel R l.getLast? l'.getLast? := by
  have hrev := optionRel_head? (List.rel_reverse h)
  rwa [List.head?_reverse, List.head?_reverse] at hrev

/-! ## Ordered sets -/

namespace OrderedSet

variable {s : OrderedSet α} {t : OrderedSet β}

/-- Sets whose elements correspond, in the same order. -/
def Rel (R : α → β → Prop) (s : OrderedSet α) (t : OrderedSet β) : Prop :=
  List.Forall₂ R s.toList t.toList

theorem Rel.refl {R : α → α → Prop} {s : OrderedSet α} (h : ∀ a ∈ s, R a a) : s.Rel R s :=
  List.forall₂_same.2 h

theorem Rel.empty : (empty : OrderedSet α).Rel R empty := .nil

theorem Rel.mem_iff (hR : BiUnique R) (h : s.Rel R t) (hab : R a b) : a ∈ s ↔ b ∈ t :=
  List.rel_mem hR hab h

theorem Rel.exists_left (h : s.Rel R t) (ha : a ∈ s) : ∃ b, R a b := by
  suffices hl : ∀ {l : List α} {l' : List β}, List.Forall₂ R l l' → a ∈ l → ∃ b, R a b from hl h ha
  intro l l' h ha
  induction h with
  | nil => cases ha
  | cons hcd _ ih =>
    rcases List.mem_cons.1 ha with rfl | ha
    · exact ⟨_, hcd⟩
    · exact ih ha

theorem Rel.exists_right (h : s.Rel R t) (hb : b ∈ t) : ∃ a, R a b :=
  exists_left (R := flip R) (List.Forall₂.flip h) hb

/-- Sets that are chosen alike. -/
theorem Rel.ite {c c' : Prop} [Decidable c] [Decidable c'] {s' : OrderedSet α} {t' : OrderedSet β}
    (hc : c ↔ c') (h : s.Rel R t) (h' : s'.Rel R t') :
    (if c then s else s').Rel R (if c' then t else t') := by
  by_cases hp : c
  · rwa [if_pos hp, if_pos (hc.1 hp)]
  · rwa [if_neg hp, if_neg fun hp' => hp (hc.2 hp')]

variable [DecidableEq α] [DecidableEq β]

theorem Rel.insert (hR : BiUnique R) (h : s.Rel R t) (hab : R a b) :
    (s.insert a).Rel R (t.insert b) := by
  by_cases ha : a ∈ s
  · have hb : b ∈ t := (h.mem_iff hR hab).1 ha
    rw [OrderedSet.insert, dif_pos (mem_def.1 ha), OrderedSet.insert, dif_pos (mem_def.1 hb)]
    exact h
  · have hb : b ∉ t := fun hb => ha ((h.mem_iff hR hab).2 hb)
    rw [Rel, toList_insert_of_not_mem ha, toList_insert_of_not_mem hb]
    exact List.rel_append h (.cons hab .nil)

theorem Rel.erase (hR : BiUnique R) (h : s.Rel R t) (hab : R a b) :
    (s.erase a).Rel R (t.erase b) := by
  rw [erase_eq_filter, erase_eq_filter]
  refine List.rel_filter (fun c d hcd => ?_) h
  simp only [decide_eq_true_eq]
  exact not_congr (rel_eq hR hcd hab)

end OrderedSet

/-! ## Ordered maps -/

namespace OrderedMap

variable {m : OrderedMap κ α} {n : OrderedMap κ β}

/-- Maps with the same keys in the same order, whose values correspond. -/
def Rel (R : α → β → Prop) (m : OrderedMap κ α) (n : OrderedMap κ β) : Prop :=
  List.Forall₂ (fun e e' => e.1 = e'.1 ∧ R e.2 e'.2) m.entries n.entries

theorem Rel.refl {R : α → α → Prop} (h : ∀ a, R a a) (m : OrderedMap κ α) : m.Rel R m :=
  List.forall₂_same.2 fun e _ => ⟨rfl, h e.2⟩

theorem Rel.empty : (empty : OrderedMap κ α).Rel R empty := .nil

theorem Rel.keys_eq (h : m.Rel R n) : m.keys = n.keys := by
  have hkeys : List.Forall₂ Eq m.keys n.keys := List.rel_map (fun _ _ he => he.1) h
  rwa [List.forall₂_eq_eq_eq] at hkeys

theorem Rel.values (h : m.Rel R n) : List.Forall₂ R m.values n.values :=
  List.rel_map (fun _ _ he => he.2) h

variable [DecidableEq κ] {k : κ}

theorem Rel.get? (h : m.Rel R n) (k : κ) : Option.Rel R (m.get? k) (n.get? k) := by
  suffices hl : ∀ {l : List (κ × α)} {l' : List (κ × β)},
      List.Forall₂ (fun e e' => e.1 = e'.1 ∧ R e.2 e'.2) l l' →
        Option.Rel R (l.lookup k) (l'.lookup k) from hl h
  intro l l' h
  induction h with
  | nil => exact .none
  | @cons e e' l l' he _ ih =>
    obtain ⟨j, x⟩ := e
    obtain ⟨j', x'⟩ := e'
    obtain ⟨rfl, hx⟩ := he
    rw [List.lookup_cons, List.lookup_cons]
    cases k == j with
    | true => exact .some hx
    | false => exact ih

theorem Rel.contains_eq (h : m.Rel R n) (k : κ) : m.contains k = n.contains k := by
  exact optionRel_isSome (h.get? k)

theorem Rel.modify {f : α → α} {f' : β → β} (h : m.Rel R n)
    (hf : ∀ a b, R a b → R (f a) (f' b)) : (m.modify k f).Rel R (n.modify k f') := by
  refine List.rel_map (fun e e' he => ?_) h
  rw [he.1]
  split
  · exact ⟨rfl, hf _ _ he.2⟩
  · exact he

theorem Rel.insert (h : m.Rel R n) (hab : R a b) : (m.insert k a).Rel R (n.insert k b) := by
  have hkeys : m.entries.map Prod.fst = n.entries.map Prod.fst := h.keys_eq
  by_cases hk : k ∈ n.entries.map Prod.fst
  · rw [OrderedMap.insert, dif_pos (hkeys ▸ hk), OrderedMap.insert, dif_pos hk]
    exact h.modify fun _ _ _ => hab
  · rw [OrderedMap.insert, dif_neg (hkeys ▸ hk), OrderedMap.insert, dif_neg hk]
    exact List.rel_append h (.cons ⟨rfl, hab⟩ .nil)

end OrderedMap

end

end Sdg
