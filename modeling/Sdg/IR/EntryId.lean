/-!
# Ids

Functions, blocks and values each live in a table of their module and are named by their place in
it. An id is a number of 32 bits, so a table has at most `2 ^ 32` named entries.
-/

namespace Sdg

/-- The tables of a module. -/
inductive Table where
  | functions
  | blocks
  | values
  deriving DecidableEq, Repr

/-- What ids into a table are shown with in front. -/
def Table.sigil : Table → String
  | .functions => "fn"
  | .blocks => "bb"
  | .values => "%"

/-- The place of an entry in the table `t`. -/
structure EntryId (t : Table) where
  word : UInt32
  deriving DecidableEq, Repr, Inhabited

abbrev FunctionId := EntryId .functions

abbrev BlockId := EntryId .blocks

abbrev ValueId := EntryId .values

namespace EntryId

variable {t : Table}

/-- The place as a number. -/
def index (i : EntryId t) : Nat := i.word.toNat

/-- The id of place `n`, if 32 bits hold it. -/
def ofNat? (n : Nat) : Option (EntryId t) :=
  if h : n < UInt32.size then some ⟨UInt32.ofNatLT n h⟩ else none

instance : ToString (EntryId t) := ⟨fun i => t.sigil ++ toString i.index⟩

@[ext] theorem ext_index {i j : EntryId t} (h : i.index = j.index) : i = j := by
  cases i; cases j
  exact congrArg EntryId.mk (UInt32.toNat_inj.1 h)

theorem index_of_ofNat? {n : Nat} {i : EntryId t} (h : ofNat? n = some i) : i.index = n := by
  unfold ofNat? at h
  split at h
  · cases h
    simp [index]
  · cases h

/-- A number that 32 bits hold is the place of an id. -/
theorem exists_index {n : Nat} (h : n < UInt32.size) : ∃ i : EntryId t, i.index = n :=
  ⟨_, index_of_ofNat? (dif_pos h)⟩

theorem index_lt (i : EntryId t) : i.index < UInt32.size := i.word.toNat_lt_size

theorem ofNat?_index (i : EntryId t) : ofNat? i.index = some i := by
  unfold ofNat? index
  rw [dif_pos i.word.toNat_lt_size]
  rfl

end EntryId

end Sdg
