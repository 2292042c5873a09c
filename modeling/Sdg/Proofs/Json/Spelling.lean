import Sdg.Json.Parser
import Sdg.Json.Printer

/-!
# The tokens of a printed value

Every value has its tokens, and cutting the printed text gives exactly these. A number or a word is
only known to be complete when the next character comes, so what is said of a piece of text is said
up to a token that waits for its end (`Lexer.Reads`).

Main result:

* `tokens?_chars` — the characters of a value are cut into its tokens.
-/

namespace Sdg.Json

mutual

/-- The tokens of a value. -/
def spelling : Json → List Token
  | .null => [.null]
  | .bool b => [.bool b]
  | .num n => [.num n]
  | .str t => [.str t]
  | .arr [] => [.openArray, .closeArray]
  | .arr (j :: js) => .openArray :: (spelling j ++ spellingItems js)
  | .obj [] => [.openObject, .closeObject]
  | .obj ((k, j) :: ms) => .openObject :: .str k :: .colon :: (spelling j ++ spellingMembers ms)

/-- The tokens of the items after the first, and of the end of the array. -/
def spellingItems : List Json → List Token
  | [] => [.closeArray]
  | j :: js => .comma :: (spelling j ++ spellingItems js)

/-- The tokens of the members after the first, and of the end of the object. -/
def spellingMembers : List (Option String × Json) → List Token
  | [] => [.closeObject]
  | (k, j) :: ms => .comma :: .str k :: .colon :: (spelling j ++ spellingMembers ms)

end

namespace Lexer

variable {before ts us : List Token} {t : Token} {cs ds : List Char} {c : Char} {s : State}

/-! ## Texts that are cut -/

/-- A character behind which a value is complete. -/
def IsDelimiter (c : Char) : Prop := c = ',' ∨ c = ':' ∨ c = ']' ∨ c = '}'

/-- In the state `s` the tokens `ts` were read, latest first. The latest may still wait for the
character behind it. -/
structure Reads (s : State) (ts : List Token) : Prop where
  finish : finish s = some ts
  step : ∀ c, IsDelimiter c → step s c = start ts c

/-- The text `cs` is cut into the tokens `ts`, wherever it stands. -/
def Cuts (cs : List Char) (ts : List Token) : Prop :=
  ∀ before, ∃ s, cs.foldlM step ⟨before, .between⟩ = some s ∧ Reads s (ts.reverse ++ before)

theorem Reads.between : Reads ⟨ts, .between⟩ ts := ⟨rfl, fun _ _ => rfl⟩

theorem Reads.word {read : List Char} (h : word? read.reverse = some t) :
    Reads ⟨ts, .word read⟩ (t :: ts) := by
  refine ⟨by simp [Lexer.finish, h], fun c hc => ?_⟩
  have hl : c.isLower = false := by
    obtain rfl | rfl | rfl | rfl := hc <;> decide
  simp [Lexer.step, hl, h]

theorem Reads.number {read : List Char} (h : number? read.reverse = some t) :
    Reads ⟨ts, .number read⟩ (t :: ts) := by
  refine ⟨by simp [Lexer.finish, h], fun c hc => ?_⟩
  have hn : isNumberChar c = false := by
    obtain rfl | rfl | rfl | rfl := hc <;> decide
  simp [Lexer.step, hn, h]

theorem Cuts.nil : Cuts [] [] := fun _ => ⟨_, rfl, .between⟩

/-- A token of one character stands in front. -/
theorem Cuts.cons (hc : ∀ before, start before c = some (emit before t)) (h : Cuts cs ts) :
    Cuts (c :: cs) (t :: ts) := by
  intro before
  obtain ⟨s, hs, hr⟩ := h (t :: before)
  refine ⟨s, ?_, by simpa using hr⟩
  rw [List.foldlM_cons]
  show (start before c).bind _ = _
  rw [hc before]
  exact hs

/-- A text is complete behind a delimiter. -/
theorem Cuts.append (h : Cuts cs ts) (hc : IsDelimiter c) (k : Cuts (c :: ds) us) :
    Cuts (cs ++ c :: ds) (ts ++ us) := by
  intro before
  obtain ⟨s, hs, hr⟩ := h before
  obtain ⟨s', hs', hr'⟩ := k (ts.reverse ++ before)
  refine ⟨s', ?_, by simpa using hr'⟩
  rw [List.foldlM_append, hs]
  rw [List.foldlM_cons] at hs'
  show (c :: ds).foldlM Lexer.step s = some s'
  -- what waited for its end is complete with the first character of the rest
  rw [List.foldlM_cons, hr.step c hc]
  exact hs'

/-! ## Numbers -/

theorem start_digit (h : c.isDigit = true) : start before c = some ⟨before, .number [c]⟩ := by
  have hne : ∀ d : Char, d.isDigit = false → c ≠ d := by
    intro d hd hcd
    rw [hcd, hd] at h
    cases h
  have hb : isBlank c = false := by
    simp [isBlank, hne ' ' (by decide), hne '\t' (by decide), hne '\n' (by decide),
      hne '\r' (by decide)]
  unfold start
  split
  case h_8 => simp [hb, h]
  all_goals exact absurd rfl (hne _ (by decide))

theorem foldlM_step_digits {read : List Char} (h : ∀ c ∈ cs, c.isDigit = true) :
    cs.foldlM step ⟨before, .number read⟩ = some ⟨before, .number (cs.reverse ++ read)⟩ := by
  induction cs generalizing read with
  | nil => rfl
  | cons c cs ih =>
    have hc : isNumberChar c = true := by simp [isNumberChar, h c List.mem_cons_self]
    rw [List.foldlM_cons]
    simp [step, hc, ih fun d hd => h d (List.mem_cons_of_mem _ hd)]

/-- Only zero is written with a zero in front. -/
theorem digits_eq_cons (n : Nat) : ∃ c cs, digits n = c :: cs ∧ (c = '0' → n = 0) := by
  induction n using Nat.strongRecOn with
  | ind n ih =>
    unfold digits
    rw [Nat.toDigits_eq_if (by decide)]
    split
    case isTrue hn =>
      have hzero : ∀ d < 10, d.digitChar = '0' → d = 0 := by decide
      exact ⟨n.digitChar, [], rfl, hzero n hn⟩
    case isFalse hn =>
      obtain ⟨c, cs, hcs, h0⟩ := ih (n / 10) (by omega)
      unfold digits at hcs
      rw [hcs]
      exact ⟨c, _, rfl, fun hc => absurd (h0 hc) (by omega)⟩

theorem isDigit_of_mem_digits {n : Nat} (h : c ∈ digits n) : c.isDigit = true :=
  Nat.isDigit_of_mem_toDigits (by decide) (by decide) h

theorem digitsThen_of_all {rest : List Char → Bool} (h : ∀ c ∈ cs, c.isDigit = true)
    (hne : cs ≠ []) : digitsThen rest cs = rest [] := by
  have ht : (cs ++ []).takeWhile Char.isDigit = cs ++ [].takeWhile Char.isDigit :=
    List.takeWhile_append_of_pos h
  have hd : (cs ++ []).dropWhile Char.isDigit = [].dropWhile Char.isDigit :=
    List.dropWhile_append_of_pos h
  simp only [List.append_nil, List.takeWhile_nil, List.dropWhile_nil] at ht hd
  simp [digitsThen, ht, hd, hne]

theorem isUnsigned_digits (n : Nat) : isUnsigned (digits n) = true := by
  obtain ⟨c, cs, hcs, h0⟩ := digits_eq_cons n
  have hall : ∀ d ∈ digits n, d.isDigit = true := fun d => isDigit_of_mem_digits
  unfold isUnsigned
  split
  case h_1 rest heq =>
    -- a zero in front stands alone
    rw [hcs] at heq
    cases heq
    have hn : n = 0 := h0 rfl
    subst hn
    cases hcs
    rfl
  case h_2 =>
    rw [digitsThen_of_all hall (by simp [hcs])]
    rfl

theorem number?_digits (n : Nat) : number? (digits n) = some (.num (some n)) := by
  have hall : ∀ d ∈ digits n, d.isDigit = true := fun d => isDigit_of_mem_digits
  unfold number?
  split
  case h_1 rest heq =>
    have hminus : '-'.isDigit = true := hall '-' (by simp [heq])
    cases hminus
  case h_2 =>
    rw [isUnsigned_digits, List.all_eq_true.2 hall]
    have hvalue : Nat.ofDigitChars 10 (digits n) 0 = n :=
      Nat.ofDigitChars_toDigits (by decide) (by decide)
    unfold Nat.ofDigitChars at hvalue
    rw [hvalue]
    rfl

theorem cuts_digits (n : Nat) : Cuts (digits n) [.num (some n)] := by
  intro before
  obtain ⟨c, cs, hcs, -⟩ := digits_eq_cons n
  have hall : ∀ d ∈ c :: cs, d.isDigit = true := fun d hd => isDigit_of_mem_digits (hcs ▸ hd)
  refine ⟨⟨before, .number (c :: cs).reverse⟩, ?_, .number ?_⟩
  · rw [hcs, List.foldlM_cons]
    show (start before c).bind _ = _
    rw [start_digit (hall c List.mem_cons_self), List.reverse_cons]
    exact foldlM_step_digits fun d hd => hall d (List.mem_cons_of_mem _ hd)
  · rw [List.reverse_reverse, ← hcs, number?_digits]

/-! ## Strings -/

theorem hexDigit?_digitChar {d : Nat} (h : d < 16) : hexDigit? d.digitChar = some d := by
  revert d
  decide

/-- What a character is written as between quotes is read as one piece, which spells it. -/
theorem exists_piece (c : Char) : ∃ p,
    (∀ read, (quotedChar c).foldlM step ⟨before, .string read⟩
      = some ⟨before, .string (p :: read)⟩) ∧
    ∀ ps, Piece.text? (p :: ps) = (Piece.text? ps).map (c :: ·) := by
  by_cases hshort :
      c = '"' ∨ c = '\\' ∨ c = '\n' ∨ c = '\r' ∨ c = '\t' ∨ c = '\x08' ∨ c = '\x0c'
  · obtain rfl | rfl | rfl | rfl | rfl | rfl | rfl := hshort <;>
      exact ⟨.char _, fun _ => rfl, fun _ => rfl⟩
  simp only [not_or] at hshort
  obtain ⟨h1, h2, h3, h4, h5, h6, h7⟩ := hshort
  by_cases hcontrol : c.toNat < 0x20
  · -- a control character is given by its number, of which the first two digits are zero
    have hzero : hexDigit? '0' = some 0 := rfl
    have hhigh := hexDigit?_digitChar (d := c.toNat / 16) (by omega)
    have hlow := hexDigit?_digitChar (d := c.toNat % 16) (by omega)
    have hvalue : 16 * (c.toNat / 16) + c.toNat % 16 = c.toNat := by omega
    refine ⟨.unit c.toNat, fun read => ?_, fun ps => ?_⟩
    · simp [quotedChar, h1, h2, h3, h4, h5, h6, h7, hcontrol, step, hzero, hhigh, hlow, hvalue]
    · have hlt : c.toNat < 0xD800 := by omega
      rw [Piece.text?.eq_def]
      simp [hlt]
  · refine ⟨.char c, fun read => ?_, fun _ => rfl⟩
    simp [quotedChar, h1, h2, h3, h4, h5, h6, h7, hcontrol, step]

theorem foldlM_step_quoted (cs : List Char) (read : List Piece) : ∃ ps,
    (cs.flatMap quotedChar).foldlM step ⟨before, .string read⟩
      = some ⟨before, .string (ps.reverse ++ read)⟩ ∧ Piece.text? ps = some cs := by
  induction cs generalizing read with
  | nil => exact ⟨[], rfl, rfl⟩
  | cons c cs ih =>
    obtain ⟨p, hp, htext⟩ := @exists_piece before c
    obtain ⟨ps, hps, hcs⟩ := ih (p :: read)
    refine ⟨p :: ps, ?_, by rw [htext, hcs]; rfl⟩
    rw [List.flatMap_cons, List.foldlM_append, hp]
    simpa using hps

theorem cuts_quoted (t : Option String) : Cuts (quoted t) [.str t] := by
  intro before
  refine ⟨⟨.str t :: before, .between⟩, ?_, .between⟩
  cases t with
  | none => rfl
  | some s =>
    obtain ⟨ps, hps, hs⟩ := @foldlM_step_quoted before s.toList []
    show (s.toList.flatMap quotedChar ++ ['"']).foldlM step ⟨before, .string []⟩ = _
    rw [List.foldlM_append, hps]
    simp [step, hs, emit]

/-! ## Values -/

theorem exists_charsItems (js : List Json) : ∃ c cs, charsItems js = c :: cs ∧ IsDelimiter c := by
  cases js with
  | nil => exact ⟨_, _, rfl, .inr (.inr (.inl rfl))⟩
  | cons j js => exact ⟨_, _, rfl, .inl rfl⟩

theorem exists_charsMembers (ms : List (Option String × Json)) :
    ∃ c cs, charsMembers ms = c :: cs ∧ IsDelimiter c := by
  cases ms with
  | nil => exact ⟨_, _, rfl, .inr (.inr (.inr rfl))⟩
  | cons m ms => exact ⟨_, _, rfl, .inl rfl⟩

/-- The first value of an array, with the rest. -/
theorem Cuts.items {j : Json} {js : List Json} (h : Cuts (chars j) (spelling j))
    (hs : Cuts (charsItems js) (spellingItems js)) :
    Cuts (chars j ++ charsItems js) (spelling j ++ spellingItems js) := by
  obtain ⟨c, cs, hcs, hc⟩ := exists_charsItems js
  rw [hcs] at hs ⊢
  exact h.append hc hs

/-- The first member of an object, with the rest. -/
theorem Cuts.members {j : Json} {ms : List (Option String × Json)} (k : Option String)
    (h : Cuts (chars j) (spelling j)) (hs : Cuts (charsMembers ms) (spellingMembers ms)) :
    Cuts (quoted k ++ ':' :: (chars j ++ charsMembers ms))
      (.str k :: .colon :: (spelling j ++ spellingMembers ms)) := by
  obtain ⟨c, cs, hcs, hc⟩ := exists_charsMembers ms
  rw [hcs] at hs ⊢
  exact (cuts_quoted k).append (.inr (.inl rfl)) (.cons (fun _ => rfl) (h.append hc hs))

mutual

theorem cuts_chars : ∀ j : Json, Cuts (chars j) (spelling j)
  | .null => fun _ => ⟨_, rfl, .word rfl⟩
  | .bool true => fun _ => ⟨_, rfl, .word rfl⟩
  | .bool false => fun _ => ⟨_, rfl, .word rfl⟩
  | .num (some n) => cuts_digits n
  | .num none => fun _ => ⟨_, rfl, .number rfl⟩
  | .str t => cuts_quoted t
  | .arr [] => .cons (fun _ => rfl) (.cons (fun _ => rfl) .nil)
  | .arr (j :: js) => .cons (fun _ => rfl) (.items (cuts_chars j) (cuts_charsItems js))
  | .obj [] => .cons (fun _ => rfl) (.cons (fun _ => rfl) .nil)
  | .obj ((k, j) :: ms) =>
    .cons (fun _ => rfl) (.members k (cuts_chars j) (cuts_charsMembers ms))

theorem cuts_charsItems : ∀ js : List Json, Cuts (charsItems js) (spellingItems js)
  | [] => .cons (fun _ => rfl) .nil
  | j :: js => .cons (fun _ => rfl) (.items (cuts_chars j) (cuts_charsItems js))

theorem cuts_charsMembers : ∀ ms : List (Option String × Json),
    Cuts (charsMembers ms) (spellingMembers ms)
  | [] => .cons (fun _ => rfl) .nil
  | (k, j) :: ms => .cons (fun _ => rfl) (.members k (cuts_chars j) (cuts_charsMembers ms))

end

end Lexer

/-- The characters of a value are cut into its tokens. -/
theorem tokens?_chars (j : Json) : tokens? (chars j) = some (spelling j) := by
  obtain ⟨s, hs, hr⟩ := Lexer.cuts_chars j []
  unfold tokens?
  rw [hs]
  simp [hr.finish]

end Sdg.Json
