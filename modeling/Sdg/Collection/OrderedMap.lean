/-!
# Maps in order of insertion

An `OrderedMap` keeps its keys in the order in which they first came in. Giving a known key a new
value leaves the key in its place. Lookup is the view through which everything else is stated.
-/

namespace Sdg

/-- Values under distinct keys, in the order of the first insertion of each key. -/
structure OrderedMap (κ β : Type) where
  /-- The keys and their values, oldest key first. -/
  entries : List (κ × β)
  /-- No key is listed twice. -/
  nodup_keys : (entries.map Prod.fst).Nodup

namespace OrderedMap

variable {κ β : Type}

/-- The map without keys. -/
def empty : OrderedMap κ β := ⟨[], List.nodup_nil⟩

instance : EmptyCollection (OrderedMap κ β) := ⟨empty⟩

instance : Inhabited (OrderedMap κ β) := ⟨empty⟩

@[ext] theorem ext {m n : OrderedMap κ β} (h : m.entries = n.entries) : m = n := by
  cases m; cases n; cases h; rfl

/-- The keys, oldest first. -/
def keys (m : OrderedMap κ β) : List κ := m.entries.map Prod.fst

/-- The values, in the order of their keys. -/
def values (m : OrderedMap κ β) : List β := m.entries.map Prod.snd

/-- The number of keys. -/
def size (m : OrderedMap κ β) : Nat := m.entries.length

variable [DecidableEq κ]

/-- The value under `k`, if `k` is a key. -/
def get? (m : OrderedMap κ β) (k : κ) : Option β := m.entries.lookup k

/-- Whether `k` is a key. -/
def contains (m : OrderedMap κ β) (k : κ) : Bool := (m.get? k).isSome

theorem lookup_eq_none_iff {l : List (κ × β)} {k : κ} :
    l.lookup k = none ↔ k ∉ l.map Prod.fst := by
  induction l with
  | nil => simp
  | cons e l ih =>
    obtain ⟨a, b⟩ := e
    by_cases h : k = a
    · subst h; simp
    · have hb : (k == a) = false := by simpa using h
      simp [List.lookup_cons, hb, h] at ih ⊢
      exact ih

theorem get?_eq_none_iff {m : OrderedMap κ β} {k : κ} : m.get? k = none ↔ k ∉ m.keys :=
  lookup_eq_none_iff

/-- Changes the value under `k`, if `k` is a key. -/
def modify (m : OrderedMap κ β) (k : κ) (f : β → β) : OrderedMap κ β :=
  ⟨m.entries.map fun e => if e.1 = k then (e.1, f e.2) else e, by
    have : (m.entries.map fun e => if e.1 = k then (e.1, f e.2) else e).map Prod.fst
        = m.entries.map Prod.fst := by
      rw [List.map_map]
      apply List.map_congr_left
      intro e _
      by_cases h : e.1 = k <;> simp [h]
    rw [this]
    exact m.nodup_keys⟩

/-- Gives `k` the value `b`: a known key stays in its place, a new one comes last. -/
def insert (m : OrderedMap κ β) (k : κ) (b : β) : OrderedMap κ β :=
  if h : k ∈ m.entries.map Prod.fst then m.modify k fun _ => b
  else ⟨m.entries ++ [(k, b)], by
    rw [List.map_append, List.nodup_append]
    exact ⟨m.nodup_keys, by simp, by
      intro x hx y hy
      simp at hy
      subst hy
      intro e
      exact h (e ▸ hx)⟩⟩

/-- Removes `k` and keeps the order of the rest. -/
def erase (m : OrderedMap κ β) (k : κ) : OrderedMap κ β :=
  ⟨m.entries.filter (·.1 ≠ k), m.nodup_keys.sublist (List.filter_sublist.map _)⟩

@[simp] theorem keys_modify (m : OrderedMap κ β) (k : κ) (f : β → β) :
    (m.modify k f).keys = m.keys := by
  unfold keys modify
  rw [List.map_map]
  apply List.map_congr_left
  intro e _
  by_cases h : e.1 = k <;> simp [h]

theorem lookup_map_modify (l : List (κ × β)) (k j : κ) (f : β → β) :
    (l.map fun e => if e.1 = k then (e.1, f e.2) else e).lookup j
      = if j = k then (l.lookup j).map f else l.lookup j := by
  induction l with
  | nil => simp
  | cons e l ih =>
    obtain ⟨a, b⟩ := e
    by_cases ha : a = k
    · by_cases hj : j = a
      · subst hj; simp [ha]
      · have hb : (j == a) = false := by simpa using hj
        simp [ha, List.lookup_cons] at ih ⊢
        subst ha
        simp [hb, ih]
    · by_cases hj : j = a
      · subst hj; simp [ha]
      · have hb : (j == a) = false := by simpa using hj
        simp [ha, List.lookup_cons, hb, ih]

theorem get?_modify (m : OrderedMap κ β) (k j : κ) (f : β → β) :
    (m.modify k f).get? j = if j = k then (m.get? j).map f else m.get? j :=
  lookup_map_modify m.entries k j f

theorem lookup_append_single (l : List (κ × β)) (k j : κ) (b : β)
    (h : k ∉ l.map Prod.fst) :
    (l ++ [(k, b)]).lookup j = if j = k then some b else l.lookup j := by
  induction l with
  | nil =>
    by_cases hj : j = k
    · simp [hj]
    · have hb : (j == k) = false := by simpa using hj
      simp [List.lookup_cons, hb, hj]
  | cons e l ih =>
    obtain ⟨a, c⟩ := e
    simp at h
    by_cases hj : j = a
    · subst hj
      have : j ≠ k := fun e => h.1 e.symm
      simp [this]
    · have hb : (j == a) = false := by simpa using hj
      simp [List.lookup_cons, hb]
      exact ih (by simpa using h.2)

theorem get?_insert (m : OrderedMap κ β) (k j : κ) (b : β) :
    (m.insert k b).get? j = if j = k then some b else m.get? j := by
  unfold insert
  split
  · rename_i h
    rw [get?_modify]
    by_cases hj : j = k
    · subst hj
      obtain ⟨c, hc⟩ := Option.ne_none_iff_exists'.1 (fun e => (get?_eq_none_iff (m := m)).1 e h)
      simp [hc]
    · simp [hj]
  · rename_i h
    exact lookup_append_single m.entries k j b h

theorem lookup_filter_ne (l : List (κ × β)) (k j : κ) :
    (l.filter (·.1 ≠ k)).lookup j = if j = k then none else l.lookup j := by
  induction l with
  | nil => simp
  | cons e l ih =>
    obtain ⟨a, b⟩ := e
    by_cases ha : a = k
    · subst ha
      rw [List.filter_cons_of_neg (by simp), ih]
      by_cases hj : j = a
      · simp [hj]
      · have hb : (j == a) = false := by simpa using hj
        simp [List.lookup_cons, hb, hj]
    · rw [List.filter_cons_of_pos (by simpa using ha)]
      by_cases hj : j = a
      · subst hj; simp [ha]
      · have hb : (j == a) = false := by simpa using hj
        simp [List.lookup_cons, hb] at ih ⊢
        exact ih

theorem get?_erase (m : OrderedMap κ β) (k j : κ) :
    (m.erase k).get? j = if j = k then none else m.get? j :=
  lookup_filter_ne m.entries k j

end OrderedMap

end Sdg
