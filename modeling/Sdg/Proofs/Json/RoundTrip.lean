import Sdg.Proofs.Json.Spelling

/-!
# Reading what was printed

The machine that reads tokens is followed along the tokens of a value. A value takes it from wanting
a value to having it, on any stack; items and members are read onto the frame that is open.

Main result:

* `parse?_render` — reading the text of a value gives the value back.
-/

namespace Sdg.Json

namespace Parser

/-- The first token of a value, which is not the end of an array. -/
theorem exists_spelling (j : Json) : ∃ t ts, spelling j = t :: ts ∧ t ≠ .closeArray := by
  rcases j with _ | b | n | t | (_ | ⟨j, js⟩) | (_ | ⟨⟨k, j⟩, ms⟩) <;> exact ⟨_, _, rfl, nofun⟩

/-- A first item is read as a value within the array. -/
theorem foldlM_itemOrClose {ts : List Token} {j : Json} {stack : List Frame} :
    (spelling j ++ ts).foldlM step ⟨stack, .itemOrClose⟩
      = (spelling j ++ ts).foldlM step ⟨.items [] :: stack, .value⟩ := by
  obtain ⟨t, us, hus, ht⟩ := exists_spelling j
  rw [hus, List.cons_append, List.foldlM_cons, List.foldlM_cons]
  have hstep : step ⟨stack, .itemOrClose⟩ t = step ⟨.items [] :: stack, .value⟩ t := if_neg ht
  rw [hstep]

mutual

theorem foldlM_spelling : ∀ (j : Json) (stack : List Frame),
    (spelling j).foldlM step ⟨stack, .value⟩ = some ⟨stack, .after j⟩
  | .null, _ | .bool _, _ | .num _, _ | .str _, _ => rfl
  | .arr [], _ | .obj [], _ => rfl
  | .arr (j :: js), stack => by
    show (spelling j ++ spellingItems js).foldlM step ⟨stack, .itemOrClose⟩ = _
    rw [foldlM_itemOrClose, List.foldlM_append, foldlM_spelling j]
    exact foldlM_spellingItems js j [] stack
  | .obj ((k, j) :: ms), stack => by
    show (spelling j ++ spellingMembers ms).foldlM step ⟨.members [] k :: stack, .value⟩ = _
    rw [List.foldlM_append, foldlM_spelling j]
    exact foldlM_spellingMembers ms k j [] stack

/-- The items after the item `j`, which came after the items `before`. -/
theorem foldlM_spellingItems : ∀ (js : List Json) (j : Json) (before : List Json)
    (stack : List Frame), (spellingItems js).foldlM step ⟨.items before :: stack, .after j⟩
      = some ⟨stack, .after (.arr (before.reverse ++ j :: js))⟩
  | [], j, before, stack => by simp [spellingItems, step, follow]
  | j' :: js, j, before, stack => by
    show (spelling j' ++ spellingItems js).foldlM step ⟨.items (j :: before) :: stack, .value⟩ = _
    rw [List.foldlM_append, foldlM_spelling j']
    refine (foldlM_spellingItems js j' (j :: before) stack).trans ?_
    simp

/-- The members after the member `k`, which came after the members `before`. -/
theorem foldlM_spellingMembers : ∀ (ms : List (Option String × Json)) (k : Option String) (j : Json)
    (before : List (Option String × Json)) (stack : List Frame),
    (spellingMembers ms).foldlM step ⟨.members before k :: stack, .after j⟩
      = some ⟨stack, .after (.obj (before.reverse ++ (k, j) :: ms))⟩
  | [], k, j, before, stack => by simp [spellingMembers, step, follow]
  | (k', j') :: ms, k, j, before, stack => by
    show (spelling j' ++ spellingMembers ms).foldlM step
      ⟨.members ((k, j) :: before) k' :: stack, .value⟩ = _
    rw [List.foldlM_append, foldlM_spelling j']
    refine (foldlM_spellingMembers ms k' j' ((k, j) :: before) stack).trans ?_
    simp

end

end Parser

theorem ofTokens?_spelling (j : Json) : ofTokens? (spelling j) = some j := by
  unfold ofTokens?
  rw [Parser.foldlM_spelling j]
  rfl

/-- Reading the text of a value gives the value back. -/
theorem parse?_render (j : Json) : parse? (render j) = some j := by
  unfold parse? render
  rw [String.toList_ofList, tokens?_chars]
  exact ofTokens?_spelling j

end Sdg.Json
