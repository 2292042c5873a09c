import Sdg.Collection.Arena
import Sdg.Collection.OrderedMap
import Sdg.Collection.OrderedSet

/-!
# Collections, further

What the theory of registries needs to know about arenas, ordered sets and ordered maps beyond the
view of each operation: arenas with the same view are equal, removal is a filter, and the keys,
values and entries of a map are read off its lookup.
-/

namespace Sdg

/-! ## Arenas -/

namespace Arena

variable {α : Type}

/-- An arena is known by how many places it handed out and what they hold. -/
theorem ext_get? {a b : Arena α} (hn : a.next = b.next) (hg : ∀ i, a.get? i = b.get? i) :
    a = b := by
  obtain ⟨as⟩ := a
  obtain ⟨bs⟩ := b
  simp only [next, get?] at hn hg
  congr 1
  apply Array.ext hn
  intro i ha hb
  have := hg i
  simpa [ha, hb] using this

/-- An item that was just put in its place may as well be put there as it is written over. -/
theorem set_push_next (a : Arena α) (x y : α) : (a.push x).set a.next y = a.push y := by
  refine ext_get? (by simp) fun i => ?_
  rw [get?_set, get?_push, get?_push]
  by_cases h : i = a.next
  · simp [h]
  · rw [if_neg (Ne.symm h), if_neg h, if_neg h]

end Arena

/-! ## Ordered sets -/

namespace OrderedSet

variable {α : Type}

theorem size_eq_zero {s : OrderedSet α} : s.size = 0 ↔ ∀ a, a ∉ s := by
  rw [size, List.length_eq_zero_iff, List.eq_nil_iff_forall_not_mem]
  rfl

/-- Sets with the same elements have the same size, whatever their orders. -/
theorem size_eq_of_mem_iff {s t : OrderedSet α} (h : ∀ a, a ∈ s ↔ a ∈ t) : s.size = t.size :=
  ((List.perm_ext_iff_of_nodup s.nodup t.nodup).2 h).length_eq

/-- The elements that pass a test, in their order. -/
def filter (s : OrderedSet α) (p : α → Bool) : OrderedSet α := ⟨s.toList.filter p, s.nodup.filter p⟩

@[simp] theorem toList_filter (s : OrderedSet α) (p : α → Bool) :
    (s.filter p).toList = s.toList.filter p := rfl

@[simp] theorem mem_filter {s : OrderedSet α} {p : α → Bool} {a : α} :
    a ∈ s.filter p ↔ a ∈ s ∧ p a = true := List.mem_filter

theorem filter_filter (s : OrderedSet α) (p q : α → Bool) :
    (s.filter p).filter q = s.filter fun a => p a && q a := by
  ext1
  simp [List.filter_filter, Bool.and_comm]

theorem filter_congr {s : OrderedSet α} {p q : α → Bool} (h : ∀ a ∈ s, p a = q a) :
    s.filter p = s.filter q :=
  ext (List.filter_congr h)

theorem filter_eq_self {s : OrderedSet α} {p : α → Bool} (h : ∀ a ∈ s, p a = true) :
    s.filter p = s :=
  ext (List.filter_eq_self.2 h)

/-- A test splits a set. -/
theorem size_filter_add (s : OrderedSet α) (p : α → Bool) :
    (s.filter p).size + (s.filter fun a => !p a).size = s.size := by
  simp only [size, toList_filter, ← List.countP_eq_length_filter]
  simp [List.length_eq_countP_add_countP (p := p) (l := s.toList)]

variable [DecidableEq α]

theorem erase_eq_filter (s : OrderedSet α) (a : α) : s.erase a = s.filter (· ≠ a) := by
  ext1
  show s.toList.erase a = s.toList.filter fun b => decide (b ≠ a)
  rw [s.nodup.erase_eq_filter]
  -- the two tests agree, but for how they are written
  apply List.filter_congr
  intro b _
  by_cases h : b = a <;> simp [h]

theorem size_insert_of_not_mem {s : OrderedSet α} {a : α} (h : a ∉ s) :
    (s.insert a).size = s.size + 1 := by
  rw [size, toList_insert_of_not_mem h, List.length_append, size]
  rfl

theorem mem_ofList {l : List α} {a : α} : a ∈ ofList l ↔ a ∈ l := by
  have hfold : ∀ (l : List α) (t : OrderedSet α), a ∈ l.foldl insert t ↔ a ∈ t ∨ a ∈ l := by
    intro l
    induction l with
    | nil => simp
    | cons c l ih =>
      intro t
      rw [List.foldl_cons, ih, mem_insert, List.mem_cons, or_assoc]
  rw [ofList, hfold]
  simp

end OrderedSet

/-! ## Ordered maps -/

namespace OrderedMap

variable {κ β : Type}

@[simp] theorem length_values (m : OrderedMap κ β) : m.values.length = m.size := List.length_map _

variable [DecidableEq κ]

@[simp] theorem get?_empty (k : κ) : (empty : OrderedMap κ β).get? k = none := rfl

theorem lookup_eq_some_iff {l : List (κ × β)} (hl : (l.map Prod.fst).Nodup) {k : κ} {b : β} :
    l.lookup k = some b ↔ (k, b) ∈ l := by
  induction l with
  | nil => simp
  | cons e l ih =>
    obtain ⟨a, c⟩ := e
    rw [List.map_cons, List.nodup_cons] at hl
    by_cases h : k = a
    · -- the first entry has the key, so no later one does
      subst h
      have hn : (k, b) ∉ l := fun hm => hl.1 (List.mem_map.2 ⟨_, hm, rfl⟩)
      simp [hn, eq_comm]
    · -- the lookup goes on behind the first entry
      have hb : (k == a) = false := by simpa using h
      rw [List.lookup_cons, hb]
      simp [h, ih hl.2]

theorem mem_entries {m : OrderedMap κ β} {k : κ} {b : β} :
    (k, b) ∈ m.entries ↔ m.get? k = some b :=
  (lookup_eq_some_iff m.nodup_keys).symm

theorem mem_keys {m : OrderedMap κ β} {k : κ} : k ∈ m.keys ↔ ∃ b, m.get? k = some b := by
  rw [keys, List.mem_map]
  constructor
  · intro h
    obtain ⟨⟨j, b⟩, hm, rfl⟩ := h
    exact ⟨b, mem_entries.1 hm⟩
  · intro h
    obtain ⟨b, hb⟩ := h
    exact ⟨(k, b), mem_entries.2 hb, rfl⟩

theorem mem_values {m : OrderedMap κ β} {b : β} : b ∈ m.values ↔ ∃ k, m.get? k = some b := by
  rw [values, List.mem_map]
  constructor
  · intro h
    obtain ⟨⟨k, c⟩, hm, rfl⟩ := h
    exact ⟨k, mem_entries.1 hm⟩
  · intro h
    obtain ⟨k, hk⟩ := h
    exact ⟨(k, b), mem_entries.2 hk, rfl⟩

theorem values_eq (m : OrderedMap κ β) : m.values = m.keys.filterMap m.get? := by
  suffices h : ∀ l : List (κ × β), (∀ e ∈ l, m.get? e.1 = some e.2) →
      l.map Prod.snd = (l.map Prod.fst).filterMap m.get? from
    h m.entries fun e he => mem_entries.1 he
  intro l hl
  induction l with
  | nil => rfl
  | cons e l ih =>
    rw [List.map_cons, List.map_cons, List.filterMap_cons_some (hl e List.mem_cons_self)]
    exact congrArg _ (ih fun e' he' => hl e' (List.mem_cons_of_mem e he'))

/-- No value is listed twice, if each is under one key. -/
theorem nodup_values {m : OrderedMap κ β}
    (h : ∀ k l b, m.get? k = some b → m.get? l = some b → k = l) : m.values.Nodup := by
  rw [values_eq, List.Nodup, List.pairwise_filterMap]
  refine List.Pairwise.imp (fun hne b hb c hc hbc => hne ?_) m.nodup_keys
  subst hbc
  exact h _ _ b hb hc

/-- A value that was just entered may as well be entered in its new form. -/
theorem modify_insert (m : OrderedMap κ β) (k : κ) (b : β) (f : β → β) :
    (m.insert k b).modify k f = m.insert k (f b) := by
  apply ext
  unfold insert
  by_cases h : k ∈ m.entries.map Prod.fst
  · rw [dif_pos h, dif_pos h]
    simp only [modify, List.map_map]
    apply List.map_congr_left
    intro e _
    by_cases he : e.1 = k <;> simp [he]
  · rw [dif_neg h, dif_neg h]
    simp only [modify, List.map_append, List.map_cons, List.map_nil, if_pos]
    congr 1
    -- no other entry is under the key
    refine (List.map_congr_left fun e he => ?_).trans (List.map_id _)
    rw [if_neg]
    · rfl
    · intro hk
      exact h (hk ▸ List.mem_map_of_mem he)

theorem contains_eq_true_iff {m : OrderedMap κ β} {k : κ} :
    m.contains k = true ↔ ∃ b, m.get? k = some b := by
  rw [contains, Option.isSome_iff_exists]

theorem contains_eq_false_iff {m : OrderedMap κ β} {k : κ} :
    m.contains k = false ↔ m.get? k = none := by
  rw [contains, Option.isSome_eq_false_iff, Option.isNone_iff_eq_none]

end OrderedMap

end Sdg
