/-!
# Sets in order of insertion

An `OrderedSet` lists its elements in the order in which they first came in. Inserting an element
again changes nothing, and removing one keeps the order of the rest, so a set shows its history and
nothing else. Membership is the view through which everything else is stated.
-/

namespace Sdg

/-- Distinct elements, in the order of their first insertion. -/
structure OrderedSet (α : Type) where
  /-- The elements, oldest first. -/
  toList : List α
  /-- No element is listed twice. -/
  nodup : toList.Nodup

namespace OrderedSet

variable {α : Type}

/-- The set without elements. -/
def empty : OrderedSet α := ⟨[], List.nodup_nil⟩

instance : EmptyCollection (OrderedSet α) := ⟨empty⟩

instance : Inhabited (OrderedSet α) := ⟨empty⟩

instance : Membership α (OrderedSet α) := ⟨fun s a => a ∈ s.toList⟩

theorem mem_def {s : OrderedSet α} {a : α} : a ∈ s ↔ a ∈ s.toList := Iff.rfl

@[ext] theorem ext {s t : OrderedSet α} (h : s.toList = t.toList) : s = t := by
  cases s; cases t; cases h; rfl

instance [DecidableEq α] : DecidableEq (OrderedSet α) := fun s t =>
  if h : s.toList = t.toList then isTrue (ext h) else isFalse fun e => h (e ▸ rfl)

instance [DecidableEq α] (s : OrderedSet α) (a : α) : Decidable (a ∈ s) :=
  inferInstanceAs (Decidable (a ∈ s.toList))

/-- The number of elements. -/
def size (s : OrderedSet α) : Nat := s.toList.length

/-- Whether the set has no elements. -/
def isEmpty (s : OrderedSet α) : Bool := s.toList.isEmpty

@[simp] theorem not_mem_empty (a : α) : a ∉ (empty : OrderedSet α) := by
  simp [mem_def, empty]

variable [DecidableEq α]

/-- Adds `a` at the end, unless it is there already. -/
def insert (s : OrderedSet α) (a : α) : OrderedSet α :=
  if h : a ∈ s.toList then s
  else ⟨s.toList ++ [a], by
    rw [List.nodup_append]
    exact ⟨s.nodup, by simp, by intro x hx y hy; simp at hy; subst hy; intro e; exact h (e ▸ hx)⟩⟩

/-- Removes `a` and keeps the order of the rest. -/
def erase (s : OrderedSet α) (a : α) : OrderedSet α := ⟨s.toList.erase a, s.nodup.erase a⟩

/-- The distinct elements of a list, in the order of their first occurrence. -/
def ofList (l : List α) : OrderedSet α := l.foldl insert empty

@[simp] theorem mem_insert {s : OrderedSet α} {a b : α} : b ∈ s.insert a ↔ b ∈ s ∨ b = a := by
  unfold insert
  split <;> simp [mem_def]
  rintro rfl
  assumption

@[simp] theorem mem_erase {s : OrderedSet α} {a b : α} : b ∈ s.erase a ↔ b ≠ a ∧ b ∈ s := by
  simp [mem_def, erase, s.nodup.mem_erase_iff]

theorem toList_insert_of_not_mem {s : OrderedSet α} {a : α} (h : a ∉ s) :
    (s.insert a).toList = s.toList ++ [a] :=
  congrArg toList (dif_neg h)

end OrderedSet

end Sdg
