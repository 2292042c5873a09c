import Sdg.Json.Basic

/-!
# Writing JSON

A value is written without spaces. A number or a string of which only the presence is known is
written as one such number or string, so reading gives every value back.
-/

namespace Sdg.Json

/-- The digits of `n`. -/
def digits (n : Nat) : List Char := Nat.toDigits 10 n

/-- A character between quotes: quotes, backslashes and control characters are escaped. -/
def quotedChar (c : Char) : List Char :=
  if c = '"' then ['\\', '"']
  else if c = '\\' then ['\\', '\\']
  else if c = '\n' then ['\\', 'n']
  else if c = '\r' then ['\\', 'r']
  else if c = '\t' then ['\\', 't']
  else if c = '\x08' then ['\\', 'b']
  else if c = '\x0c' then ['\\', 'f']
  else if c.toNat < 0x20 then
    ['\\', 'u', '0', '0', Nat.digitChar (c.toNat / 16), Nat.digitChar (c.toNat % 16)]
  else [c]

/-- A string in quotes. -/
def quoted : Option String → List Char
  | some s => '"' :: s.toList.flatMap quotedChar ++ ['"']
  | none => ['"', '\\', 'u', 'd', '8', '0', '0', '"']

mutual

/-- The characters of a value. -/
def chars : Json → List Char
  | .null => ['n', 'u', 'l', 'l']
  | .bool true => ['t', 'r', 'u', 'e']
  | .bool false => ['f', 'a', 'l', 's', 'e']
  | .num (some n) => digits n
  | .num none => ['-', '1']
  | .str t => quoted t
  | .arr [] => ['[', ']']
  | .arr (j :: js) => '[' :: (chars j ++ charsItems js)
  | .obj [] => ['{', '}']
  | .obj ((k, j) :: ms) => '{' :: (quoted k ++ ':' :: (chars j ++ charsMembers ms))

/-- The items after the first, and the closing bracket. -/
def charsItems : List Json → List Char
  | [] => [']']
  | j :: js => ',' :: (chars j ++ charsItems js)

/-- The members after the first, and the closing brace. -/
def charsMembers : List (Option String × Json) → List Char
  | [] => ['}']
  | (k, j) :: ms => ',' :: (quoted k ++ ':' :: (chars j ++ charsMembers ms))

end

/-- The text of a value. -/
def render (j : Json) : String := String.ofList (chars j)

end Sdg.Json
