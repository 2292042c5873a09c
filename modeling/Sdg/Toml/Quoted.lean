/-!
# Strings in settings files

A string is basic (in double quotes, with escapes) or literal (in single quotes, as it stands), and
either kind may run over several lines between triple quotes. Each reader starts behind the opening
quotes and answers the text and what comes behind the closing ones.
-/

namespace Sdg.Toml

/-- What may stand in a comment: tabs and everything that is not a control character. -/
def isCommentChar (c : Char) : Bool := c == '\t' || (0x20 ≤ c.toNat && c.toNat ≠ 0x7F)

def isBlank (c : Char) : Bool := c == ' ' || c == '\t'

/-- The value of a hexadecimal digit. -/
def hexDigit? (c : Char) : Option Nat :=
  if c.isDigit then some (c.toNat - '0'.toNat)
  else if 'a' ≤ c && c ≤ 'f' then some (c.toNat - 'a'.toNat + 10)
  else if 'A' ≤ c && c ≤ 'F' then some (c.toNat - 'A'.toNat + 10)
  else none

/-- The character whose number the hexadecimal digits spell. -/
def charOfHex? (ds : List Char) : Option Char := do
  let n ← ds.foldlM (fun n d => (hexDigit? d).map (16 * n + ·)) 0
  if n.isValidChar then some (Char.ofNat n) else none

/-- The character that a short escape stands for. -/
def shortEscape? : Char → Option Char
  | 'b' => some '\x08'
  | 't' => some '\t'
  | 'n' => some '\n'
  | 'f' => some '\x0c'
  | 'r' => some '\r'
  | '"' => some '"'
  | '\\' => some '\\'
  | _ => none

/-- Puts a character in front of a text that was read. -/
def push (c : Char) : Option (List Char × List Char) → Option (List Char × List Char) :=
  Option.map fun (s, rest) => (c :: s, rest)

/-- The rest of a basic string on one line. -/
def basic? : List Char → Option (List Char × List Char)
  | [] => none
  | '"' :: rest => some ([], rest)
  | '\\' :: 'u' :: a :: b :: c :: d :: rest =>
    (charOfHex? [a, b, c, d]).bind fun x => push x (basic? rest)
  | '\\' :: 'U' :: a :: b :: c :: d :: e :: f :: g :: h :: rest =>
    (charOfHex? [a, b, c, d, e, f, g, h]).bind fun x => push x (basic? rest)
  | '\\' :: c :: rest => (shortEscape? c).bind fun x => push x (basic? rest)
  | c :: rest => if c ≠ '\\' ∧ isCommentChar c then push c (basic? rest) else none

/-- The rest of a literal string on one line. -/
def literal? : List Char → Option (List Char × List Char)
  | [] => none
  | c :: rest =>
    if c = '\'' then some ([], rest)
    else if isCommentChar c then push c (literal? rest)
    else none

/-- Where a reader of several lines stands. -/
inductive Lines where
  /-- In the text. -/
  | within
  /-- Behind a backslash and blanks: the line has to end here. -/
  | ending
  /-- Behind such a line end: blanks and line ends are passed over. -/
  | skipping

/-- The closing quotes at the head of a text: three of them, of which up to two more in front belong
to the string. -/
def closing? (quote : Char) (cs : List Char) : Option (List Char × List Char) :=
  if cs.take 3 = [quote, quote, quote] then
    let extra := ((cs.drop 3).take 2).takeWhile (· = quote)
    some (extra, cs.drop (3 + extra.length))
  else none

/-- The rest of a basic string over several lines. A backslash at the end of a line joins it to the
next character that shows. -/
def basicLines? : Lines → List Char → Option (List Char × List Char)
  | _, [] => none
  | .ending, c :: rest =>
    if isBlank c then basicLines? .ending rest
    else if c = '\n' then basicLines? .skipping rest
    else
      match c, rest with
      | '\r', '\n' :: rest => basicLines? .skipping rest
      | _, _ => none
  | .skipping, '\r' :: '\n' :: rest => basicLines? .skipping rest
  | _, '\r' :: '\n' :: rest => push '\n' (basicLines? .within rest)
  | _, '\\' :: 'u' :: a :: b :: c :: d :: rest =>
    (charOfHex? [a, b, c, d]).bind fun x => push x (basicLines? .within rest)
  | _, '\\' :: 'U' :: a :: b :: c :: d :: e :: f :: g :: h :: rest =>
    (charOfHex? [a, b, c, d, e, f, g, h]).bind fun x => push x (basicLines? .within rest)
  -- a line end that is escaped joins the lines
  | _, '\\' :: '\n' :: rest => basicLines? .skipping rest
  | _, '\\' :: '\r' :: '\n' :: rest => basicLines? .skipping rest
  | _, '\\' :: c :: rest =>
    if isBlank c then basicLines? .ending rest
    else (shortEscape? c).bind fun x => push x (basicLines? .within rest)
  | mode, c :: rest =>
    -- only where nothing shows yet
    if (mode matches .skipping) ∧ (isBlank c ∨ c = '\n') then basicLines? .skipping rest
    else
      match closing? '"' (c :: rest) with
      | some closed => some closed
      | none =>
        if c = '\n' ∨ (c ≠ '\\' ∧ isCommentChar c) then push c (basicLines? .within rest) else none

/-- The rest of a literal string over several lines. -/
def literalLines? : List Char → Option (List Char × List Char)
  | [] => none
  | '\r' :: '\n' :: rest => push '\n' (literalLines? rest)
  | c :: rest =>
    match closing? '\'' (c :: rest) with
    | some closed => some closed
    | none => if c = '\n' ∨ isCommentChar c then push c (literalLines? rest) else none

/-- Drops a line end at the head of a text. -/
def dropLineEnd : List Char → List Char
  | '\n' :: rest => rest
  | '\r' :: '\n' :: rest => rest
  | cs => cs

/-- A string of any kind at the head of a text. A line end right behind triple quotes is dropped. -/
def string? : List Char → Option (List Char × List Char)
  | '"' :: '"' :: '"' :: rest => basicLines? .within (dropLineEnd rest)
  | '\'' :: '\'' :: '\'' :: rest => literalLines? (dropLineEnd rest)
  | '"' :: rest => basic? rest
  | '\'' :: rest => literal? rest
  | _ => none

end Sdg.Toml
