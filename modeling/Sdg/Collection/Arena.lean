/-!
# Arenas

An `Arena` hands out places in increasing order and never hands one out again: a place that was
freed stays empty. `get?` is the view; each operation says what it does to it.
-/

namespace Sdg

/-- Places `0, 1, …` of which each holds an item or was freed. -/
structure Arena (α : Type) where
  /-- All places ever handed out; a freed place holds nothing. -/
  cells : Array (Option α)

namespace Arena

variable {α : Type}

/-- The arena that has handed out no place. -/
def empty : Arena α := ⟨#[]⟩

instance : EmptyCollection (Arena α) := ⟨empty⟩

instance : Inhabited (Arena α) := ⟨empty⟩

/-- The item at place `i`, unless that place was freed or never handed out. -/
def get? (a : Arena α) (i : Nat) : Option α := a.cells[i]?.join

/-- The place that the next item will get: the number of places handed out so far. -/
def next (a : Arena α) : Nat := a.cells.size

/-- Puts an item in the next place. -/
def push (a : Arena α) (x : α) : Arena α := ⟨a.cells.push (some x)⟩

/-- Writes a new item over a live one. A freed place stays free. -/
def set (a : Arena α) (i : Nat) (x : α) : Arena α :=
  ⟨a.cells.modify i fun c => c.map fun _ => x⟩

/-- Frees place `i`. -/
def erase (a : Arena α) (i : Nat) : Arena α := ⟨a.cells.modify i fun _ => none⟩

/-- The live items with their places, in the order of the places. -/
def live (a : Arena α) : List (Nat × α) :=
  (List.range a.next).filterMap fun i => (a.get? i).map (i, ·)

/-- The number of live items. -/
def count (a : Arena α) : Nat := a.live.length

@[simp] theorem get?_empty (i : Nat) : (empty : Arena α).get? i = none := by simp [empty, get?]

@[simp] theorem next_push (a : Arena α) (x : α) : (a.push x).next = a.next + 1 := by
  simp [next, push]

@[simp] theorem next_set (a : Arena α) (i : Nat) (x : α) : (a.set i x).next = a.next := by
  simp [next, set]

@[simp] theorem next_erase (a : Arena α) (i : Nat) : (a.erase i).next = a.next := by
  simp [next, erase]

theorem get?_push (a : Arena α) (x : α) (i : Nat) :
    (a.push x).get? i = if i = a.next then some x else a.get? i := by
  unfold get? push next
  rw [Array.getElem?_push]
  by_cases h : i = a.cells.size <;> simp [h]

theorem get?_set (a : Arena α) (x : α) (i j : Nat) :
    (a.set i x).get? j = if i = j then (a.get? j).map fun _ => x else a.get? j := by
  simp only [get?, set, Array.getElem?_modify]
  split
  · cases a.cells[j]? with
    | none => rfl
    | some c => cases c <;> rfl
  · rfl

theorem get?_erase (a : Arena α) (i j : Nat) :
    (a.erase i).get? j = if i = j then none else a.get? j := by
  simp only [get?, erase, Array.getElem?_modify]
  split
  · cases a.cells[j]? <;> rfl
  · rfl

theorem get?_of_next_le {a : Arena α} {i : Nat} (h : a.next ≤ i) : a.get? i = none := by
  simp [get?, Array.getElem?_eq_none h]

theorem lt_next_of_get? {a : Arena α} {i : Nat} {x : α} (h : a.get? i = some x) : i < a.next := by
  apply Nat.lt_of_not_le
  intro hle
  rw [get?_of_next_le hle] at h
  cases h

@[simp] theorem mem_live {a : Arena α} {i : Nat} {x : α} :
    (i, x) ∈ a.live ↔ a.get? i = some x := by
  unfold live
  rw [List.mem_filterMap]
  constructor
  · rintro ⟨j, _, h⟩
    obtain ⟨y, hy, he⟩ := Option.map_eq_some_iff.1 h
    cases he
    exact hy
  · intro h
    exact ⟨i, List.mem_range.2 (lt_next_of_get? h), by rw [h]; rfl⟩

end Arena

end Sdg
