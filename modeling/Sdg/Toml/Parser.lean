import Sdg.Toml.Basic
import Sdg.Toml.Quoted

/-!
# Reading settings files

A file is a list of lines, each empty, a comment, or a name, an equals sign and a value. Only lists
and strings between triple quotes go over line ends.
-/

namespace Sdg.Toml

/-- Drops blanks, line ends and, if they are whole, comments. With `inComment` the text starts
within a comment. -/
def filler? (inComment : Bool) : List Char → Option (List Char)
  | [] => some []
  | '\r' :: '\n' :: rest => filler? false rest
  | c :: rest =>
    if c = '\n' then filler? false rest
    -- a comment ends at the line end alone
    else if inComment then if isCommentChar c then filler? true rest else none
    else if isBlank c then filler? false rest
    else if c = '#' then filler? true rest
    else some (c :: rest)

/-- Drops blanks and a comment up to the end of the line, which has to come. -/
def lineEnd? (cs : List Char) : Option (List Char) :=
  let cs := cs.dropWhile isBlank
  let cs := match cs with
    | '#' :: rest => rest.dropWhile isCommentChar
    | cs => cs
  match cs with
  | [] => some []
  | '\n' :: rest => some rest
  | '\r' :: '\n' :: rest => some rest
  | _ => none

/-- What a bare name is made of. -/
def isBareChar (c : Char) : Bool := c.isAlphanum || c == '-' || c == '_'

/-- A name at the head of a text: bare, or a string on one line. -/
def name? : List Char → Option (List Char × List Char)
  | '"' :: rest => basic? rest
  | '\'' :: rest => literal? rest
  | cs => if (cs.takeWhile isBareChar).isEmpty then none
    else some (cs.takeWhile isBareChar, cs.dropWhile isBareChar)

/-- The items of a list up to its closing bracket. Each item takes a character, so the length of the
text is enough for `steps`. -/
def items? : (steps : Nat) → List Char → Option (List String × List Char)
  | 0, _ => none
  | steps + 1, cs => do
    match ← filler? false cs with
    -- an empty list, or a comma behind the last item
    | ']' :: rest => some ([], rest)
    | cs =>
      let (s, rest) ← string? cs
      match ← filler? false rest with
      | ',' :: rest =>
        let (ss, rest) ← items? steps rest
        some (String.ofList s :: ss, rest)
      | ']' :: rest => some ([String.ofList s], rest)
      | _ => none

/-- A value at the head of a text. -/
def value? : List Char → Option (Value × List Char)
  | 't' :: 'r' :: 'u' :: 'e' :: rest => some (.bool true, rest)
  | 'f' :: 'a' :: 'l' :: 's' :: 'e' :: rest => some (.bool false, rest)
  | '[' :: rest => (items? rest.length rest).map fun (l, rest) => (.texts l, rest)
  | cs => (string? cs).map fun (s, rest) => (.text (String.ofList s), rest)

/-- The named values of a text. Each takes a character, so one more than the length of the text is
enough for `steps`. -/
def entries? : (steps : Nat) → List Char → Option (List Entry)
  | 0, _ => none
  | steps + 1, cs => do
    match ← filler? false cs with
    | [] => some []
    | cs =>
      let (name, rest) ← name? cs
      match rest.dropWhile isBlank with
      | '=' :: rest =>
        let (value, rest) ← value? (rest.dropWhile isBlank)
        let more ← entries? steps (← lineEnd? rest)
        some ((String.ofList name, value) :: more)
      | _ => none

/-- Reads a whole file, which may start with a byte order mark. No name may stand twice. -/
def parse? (text : String) : Option (List Entry) := do
  let cs := match text.toList with
    | '\ufeff' :: rest => rest
    | cs => cs
  let es ← entries? (cs.length + 1) cs
  if (es.map Prod.fst).Nodup then some es else none

end Sdg.Toml
