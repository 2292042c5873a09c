import Sdg.IR.Decode
import Sdg.IR.Encode
import Sdg.Proofs.Json.Record

/-!
# How deep types nest

Types are the one part of a module that nests without bound. A type is read if it opens no more
containers than there is room for, and what was read opens no more when it is written again, in
whatever form it stood there.

Main results:

* `Ty.ofJson?_toJson` — a type that fits is read back from what is written for it.
* `Ty.nesting_le` — a type that was read fits.
-/

namespace Sdg

namespace Ty

/-- How many containers a type opens at once. -/
def nesting : Ty → Nat
  | void | label => 0
  | int _ | float _ | aggregate _ => 1
  | ptr _ => 2
  | vec element _ => element.nesting + 2

open Json in
theorem nesting_toJson (ty : Ty) : ty.toJson.nesting = ty.nesting := by
  induction ty with
  | vec element length ih =>
    simp [toJson, tagged, record, nat, Json.nesting, nestingMembers, nesting, ih]
  | _ => simp [toJson, tagged, record, nat, text, Json.nesting, nestingMembers, nesting]

/-- A type that fits is read back from what is written for it. -/
theorem ofJson?_toJson {room : Nat} {ty : Ty} (h : ty.nesting ≤ room) :
    ofJson? room ty.toJson = some ty := by
  induction ty generalizing room with
  | void | label => cases room <;> rfl
  | int bits | float bits | aggregate name =>
    obtain ⟨inner, rfl⟩ := Nat.exists_eq_add_of_le' h
    simp [nesting, ofJson?, toJson, Json.tagged]
  | ptr space =>
    obtain ⟨inner, rfl⟩ := Nat.exists_eq_add_of_le' h
    simp [nesting, ofJson?, toJson, Json.tagged, Json.fields?_record]
  | vec element length ih =>
    obtain ⟨inner, rfl⟩ := Nat.exists_eq_add_of_le' h
    show ofJson? (inner + element.nesting + 2) _ = _
    simp [ofJson?, toJson, Json.tagged, Json.fields?_record, ih]

/-- A type that was read fits. -/
theorem nesting_le {room : Nat} {j : Json} {ty : Ty} (h : ofJson? room j = some ty) :
    ty.nesting ≤ room := by
  fun_induction ofJson? room j generalizing ty
  case case1 | case2 | case4 | case6 =>
    cases h
    exact Nat.zero_le _
  case case8 | case9 | case10 =>
    obtain ⟨_, -, rfl⟩ := Option.map_eq_some_iff.1 h
    exact Nat.le_add_left 1 _
  case case11 =>
    obtain ⟨_, -, rfl⟩ := Option.map_eq_some_iff.1 h
    exact Nat.le_add_left 2 _
  case case13 ih =>
    simp only [Option.bind_eq_bind, Option.bind_eq_some_iff, Option.pure_def,
      Option.some.injEq] at h
    obtain ⟨element, helement, length, -, rfl⟩ := h
    exact Nat.add_le_add_right (ih helement) 2
  all_goals cases h

end Ty

end Sdg
