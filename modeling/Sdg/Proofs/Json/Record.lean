import Mathlib.Data.List.Nodup
import Mathlib.Data.List.Count
import Sdg.Json.Record
import Sdg.Proofs.Collection

/-!
# Records that were written

What stands in a record, a list or an option is read back, and how deep a value nests is known from
its parts.
-/

namespace Sdg.Json

variable {α : Type}

/-! ## Reading back -/

@[simp] theorem word?_nat (w : UInt32) : (nat w.toNat).word? = some w := by
  simp [nat, word?, w.toNat_lt_size]

@[simp] theorem bool?_bool (b : Bool) : (Json.bool b).bool? = some b := rfl

@[simp] theorem text?_text (s : String) : (text s).text? = some s := rfl

@[simp] theorem variant?_text (tag : String) : (text tag).variant? = some (tag, none) := rfl

@[simp] theorem variant?_tagged (tag : String) (payload : Json) :
    (tagged tag payload).variant? = some (tag, some payload) := rfl

/-- A field is found under its name. -/
theorem lookup_of_mem {members : List (String × Json)} (hd : (members.map Prod.fst).Nodup)
    {m : String × Json} (hm : m ∈ members) :
    (members.map fun m => (some m.1, m.2)).lookup (some m.1) = some m.2 := by
  obtain ⟨front, back, rfl⟩ := List.append_of_mem hm
  refine List.lookup_eq_some_iff.2 ⟨_, _, List.map_append, fun p hp => ?_⟩
  obtain ⟨n, hn, rfl⟩ := List.mem_map.1 hp
  -- a field in front of it has another name
  rw [List.map_append, List.nodup_append] at hd
  have hne : n.1 ≠ m.1 := hd.2.2 n.1 (List.mem_map_of_mem hn) m.1 (by simp)
  simpa using hne.symm

/-- A record is read field by field, in the order in which it was written. -/
theorem fields?_record {members : List (String × Json)} {names : List String}
    (hn : members.map Prod.fst = names) (hd : names.Nodup) :
    (record members).fields? names = some (members.map fun m => some m.2) := by
  subst hn
  have hkeys : (members.map fun m => (some m.1, m.2)).map Prod.fst
      = (members.map Prod.fst).map some := by simp
  have honce : ∀ n, ((members.map fun m => (some m.1, m.2)).map Prod.fst).count (some n) ≤ 1 := by
    rw [hkeys]
    exact fun n => List.nodup_iff_count_le_one.1 (hd.map fun _ _ => Option.some.inj) (some n)
  show (if _ then _ else _) = _
  rw [if_pos]
  · rw [List.map_map]
    exact congrArg some (List.map_congr_left fun m => lookup_of_mem hd)
  · simp only [Bool.and_eq_true, List.all_eq_true, decide_eq_true_eq]
    refine ⟨fun p hp => ?_, fun n _ => honce n⟩
    obtain ⟨m, -, rfl⟩ := List.mem_map.1 hp
    rfl

theorem list?_map {item? : Json → Option α} {f : α → Json} {as : List α}
    (h : ∀ a ∈ as, item? (f a) = some a) : (arr (as.map f)).list? item? = some as := by
  show (as.map f).mapM item? = some as
  rw [List.mapM_map]
  induction as with
  | nil => rfl
  | cons a as ih =>
    have ha : (item? ∘ f) a = some a := h a List.mem_cons_self
    rw [List.mapM_cons, ha, ih fun b hb => h b (List.mem_cons_of_mem _ hb)]
    rfl

/-- What is in a list that was read was an item of it. -/
theorem exists_of_mem_list? {item? : Json → Option α} {j : Json} {as : List α} {a : α}
    (h : j.list? item? = some as) (ha : a ∈ as) : ∃ i, item? i = some a := by
  unfold list? at h
  split at h
  case h_2 => cases h
  case h_1 items =>
  induction items generalizing as with
  | nil =>
    cases h
    cases ha
  | cons i items ih =>
    rw [List.mapM_cons] at h
    simp only [Option.bind_eq_bind, Option.bind_eq_some_iff, Option.pure_def,
      Option.some.injEq] at h
    obtain ⟨b, hb, bs, hbs, rfl⟩ := h
    rcases List.mem_cons.1 ha with rfl | ha
    · exact ⟨i, hb⟩
    · exact ih ha hbs

theorem optionalField?_ofOption {value? : Json → Option α} {f : α → Json}
    (h : ∀ a, value? (f a) = some a) (hn : ∀ a, f a ≠ .null) (a? : Option α) :
    optionalField? value? (some (ofOption f a?)) = some a? := by
  cases a? with
  | none => rfl
  | some a =>
    show nullable? value? (f a) = _
    unfold nullable?
    split
    case h_1 heq => exact absurd heq (hn a)
    case h_2 => rw [h a]; rfl

/-! ## Nesting -/

mutual

/-- How many arrays and objects are open at once in a value, at most. -/
def nesting : Json → Nat
  | .arr items => nestingItems items + 1
  | .obj members => nestingMembers members + 1
  | _ => 0

def nestingItems : List Json → Nat
  | [] => 0
  | j :: js => max (nesting j) (nestingItems js)

def nestingMembers : List (Option String × Json) → Nat
  | [] => 0
  | (_, j) :: ms => max (nesting j) (nestingMembers ms)

end

theorem nesting_lt_of_mem_arr {items : List Json} {j : Json} (h : j ∈ items) :
    j.nesting < (arr items).nesting := by
  suffices hle : j.nesting ≤ nestingItems items by
    rw [nesting]
    omega
  induction items with
  | nil => cases h
  | cons i items ih =>
    rw [nestingItems]
    rcases List.mem_cons.1 h with rfl | h
    · exact Nat.le_max_left _ _
    · exact Nat.le_trans (ih h) (Nat.le_max_right _ _)

theorem nesting_lt_of_mem_record {members : List (String × Json)} {k : String} {j : Json}
    (h : (k, j) ∈ members) : j.nesting < (record members).nesting := by
  suffices hle : j.nesting ≤ nestingMembers (members.map fun m => (some m.1, m.2)) by
    rw [record, nesting]
    omega
  induction members with
  | nil => cases h
  | cons m members ih =>
    rw [List.map_cons, nestingMembers]
    rcases List.mem_cons.1 h with rfl | h
    · exact Nat.le_max_left _ _
    · exact Nat.le_trans (ih h) (Nat.le_max_right _ _)

end Sdg.Json
