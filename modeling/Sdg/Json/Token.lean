import Sdg.Json.Basic

/-!
# JSON tokens

A JSON text is cut into tokens by a machine that reads one character at a time. Within a token it
keeps what it has read so far; a number or a word ends at the first character that cannot continue
it, and that character is then read as the start of something else.
-/

namespace Sdg.Json

/-- A token of a JSON text. -/
inductive Token where
  | openArray
  | closeArray
  | openObject
  | closeObject
  | comma
  | colon
  | null
  | bool (b : Bool)
  | num (value : Option Nat)
  | str (text : Option String)
  deriving DecidableEq, Repr

/-- A part of a string between quotes. -/
inductive Piece where
  /-- A character, written as itself or by a short escape. -/
  | char (c : Char)
  /-- A code unit of sixteen bits, written by its four hexadecimal digits. -/
  | unit (u : Nat)
  deriving DecidableEq, Repr

/-- The text that the pieces spell, unless a unit is half of a surrogate pair without the other. -/
def Piece.text? : List Piece → Option (List Char)
  | [] => some []
  | .char c :: rest => (Piece.text? rest).map (c :: ·)
  | .unit u :: rest =>
    -- a unit outside the surrogates is a character by itself
    if u < 0xD800 || 0xDFFF < u then (Piece.text? rest).map (Char.ofNat u :: ·)
    else match rest with
      | .unit v :: rest' =>
        -- a high half and a low half, in this order
        if u < 0xDC00 && 0xDC00 ≤ v && v ≤ 0xDFFF then
          (Piece.text? rest').map
            (Char.ofNat (0x10000 + (u - 0xD800) * 0x400 + (v - 0xDC00)) :: ·)
        else none
      | _ => none

namespace Lexer

/-- What the machine is in the middle of. Characters read so far come latest first. -/
inductive Mode where
  | between
  | word (read : List Char)
  | number (read : List Char)
  | string (read : List Piece)
  | escape (read : List Piece)
  | hex (read : List Piece) (value : Nat) (missing : Nat)

/-- The tokens so far, latest first, and the one that is being read. -/
structure State where
  tokens : List Token
  mode : Mode

/-- Spaces, tabs and the two line break characters. -/
def isBlank (c : Char) : Bool := c == ' ' || c == '\t' || c == '\n' || c == '\r'

def isNumberChar (c : Char) : Bool :=
  c.isDigit || c == '+' || c == '-' || c == '.' || c == 'e' || c == 'E'

/-- At least one digit, and then whatever `rest` takes. -/
def digitsThen (rest : List Char → Bool) (cs : List Char) : Bool :=
  !(cs.takeWhile Char.isDigit).isEmpty && rest (cs.dropWhile Char.isDigit)

/-- Nothing, or an exponent. -/
def isExponent : List Char → Bool
  | [] => true
  | c :: rest =>
    (c == 'e' || c == 'E') &&
      match rest with
      | '+' :: ds => digitsThen List.isEmpty ds
      | '-' :: ds => digitsThen List.isEmpty ds
      | ds => digitsThen List.isEmpty ds

/-- Nothing, or a fraction, an exponent or both. -/
def isFraction : List Char → Bool
  | '.' :: ds => digitsThen isExponent ds
  | cs => isExponent cs

/-- A number without a sign: no zero may stand before another digit. -/
def isUnsigned : List Char → Bool
  | '0' :: rest => isFraction rest
  | cs => digitsThen isFraction cs

/-- The token of a number, if it has the form of one. -/
def number? : List Char → Option Token
  -- a number that is no natural number has no value here
  | '-' :: cs => if isUnsigned cs then some (.num none) else none
  | cs =>
    if !isUnsigned cs then none
    else if cs.all Char.isDigit then
      some (.num (some (cs.foldl (fun n c => 10 * n + (c.toNat - '0'.toNat)) 0)))
    else some (.num none)

/-- The token of a word. -/
def word? (cs : List Char) : Option Token :=
  if cs = ['n', 'u', 'l', 'l'] then some .null
  else if cs = ['t', 'r', 'u', 'e'] then some (.bool true)
  else if cs = ['f', 'a', 'l', 's', 'e'] then some (.bool false)
  else none

/-- The character that a short escape stands for. -/
def shortEscape? : Char → Option Char
  | '"' => some '"'
  | '\\' => some '\\'
  | '/' => some '/'
  | 'b' => some '\x08'
  | 'f' => some '\x0c'
  | 'n' => some '\n'
  | 'r' => some '\r'
  | 't' => some '\t'
  | _ => none

/-- The value of a hexadecimal digit. -/
def hexDigit? (c : Char) : Option Nat :=
  if c.isDigit then some (c.toNat - '0'.toNat)
  else if 'a' ≤ c && c ≤ 'f' then some (c.toNat - 'a'.toNat + 10)
  else if 'A' ≤ c && c ≤ 'F' then some (c.toNat - 'A'.toNat + 10)
  else none

/-- The state after a whole token. -/
def emit (ts : List Token) (t : Token) : State := ⟨t :: ts, .between⟩

/-- Reads a character that continues no token. -/
def start (ts : List Token) (c : Char) : Option State :=
  match c with
  | '[' => some (emit ts .openArray)
  | ']' => some (emit ts .closeArray)
  | '{' => some (emit ts .openObject)
  | '}' => some (emit ts .closeObject)
  | ',' => some (emit ts .comma)
  | ':' => some (emit ts .colon)
  | '"' => some ⟨ts, .string []⟩
  | c =>
    if isBlank c then some ⟨ts, .between⟩
    else if c.isDigit || c == '-' then some ⟨ts, .number [c]⟩
    else if c.isLower then some ⟨ts, .word [c]⟩
    else none

/-- Reads one character. -/
def step (s : State) (c : Char) : Option State :=
  match s.mode with
  | .between => start s.tokens c
  | .word read =>
    if c.isLower then some ⟨s.tokens, .word (c :: read)⟩
    -- `c` is the start of the next token
    else (word? read.reverse).bind fun t => start (t :: s.tokens) c
  | .number read =>
    if isNumberChar c then some ⟨s.tokens, .number (c :: read)⟩
    else (number? read.reverse).bind fun t => start (t :: s.tokens) c
  | .string read =>
    if c = '"' then
      some (emit s.tokens (.str ((Piece.text? read.reverse).map String.ofList)))
    else if c = '\\' then some ⟨s.tokens, .escape read⟩
    -- control characters have to be escaped
    else if c.toNat < 0x20 then none
    else some ⟨s.tokens, .string (.char c :: read)⟩
  | .escape read =>
    if c = 'u' then some ⟨s.tokens, .hex read 0 4⟩
    else (shortEscape? c).map fun d => ⟨s.tokens, .string (.char d :: read)⟩
  | .hex read value missing =>
    (hexDigit? c).map fun d =>
      if missing ≤ 1 then ⟨s.tokens, .string (.unit (16 * value + d) :: read)⟩
      else ⟨s.tokens, .hex read (16 * value + d) (missing - 1)⟩

/-- The tokens at the end of the text, latest first; none if it ends within a string. -/
def finish (s : State) : Option (List Token) :=
  match s.mode with
  | .between => some s.tokens
  | .word read => (word? read.reverse).map (· :: s.tokens)
  | .number read => (number? read.reverse).map (· :: s.tokens)
  | _ => none

end Lexer

/-- Cuts a text into its tokens. -/
def tokens? (cs : List Char) : Option (List Token) :=
  ((cs.foldlM Lexer.step ⟨[], .between⟩).bind Lexer.finish).map List.reverse

end Sdg.Json
