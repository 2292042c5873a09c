import Sdg.Json.Token

/-!
# Reading JSON

The tokens of a text are read by a machine over a stack of open containers. Beside the stack it
knows what has to come next, so that a comma before a closing bracket, a missing colon or a second
value has no transition. Containers may nest to any depth.
-/

namespace Sdg.Json

namespace Parser

/-- An open container and what it holds so far, latest first. -/
inductive Frame where
  | items (before : List Json)
  /-- In an object, within the value of the member `key`. -/
  | members (before : List (Option String × Json)) (key : Option String)

/-- What has to come next. -/
inductive Want where
  /-- A value. -/
  | value
  /-- A first item or the end of the array. -/
  | itemOrClose
  /-- A first key or the end of the object. -/
  | keyOrClose
  /-- A key, after a comma. -/
  | key (before : List (Option String × Json))
  /-- The colon behind a key. -/
  | colon (before : List (Option String × Json)) (key : Option String)
  /-- What may follow the value `j`: a comma, the end of its container, or nothing at all. -/
  | after (j : Json)

/-- The open containers, innermost first, and what has to come next. -/
structure State where
  stack : List Frame
  want : Want

/-- The value that a token is by itself. -/
def scalar? : Token → Option Json
  | .null => some .null
  | .bool b => some (.bool b)
  | .num n => some (.num n)
  | .str t => some (.str t)
  | _ => none

/-- Reads the first token of a value. -/
def startValue (stack : List Frame) (t : Token) : Option State :=
  match t with
  | .openArray => some ⟨stack, .itemOrClose⟩
  | .openObject => some ⟨stack, .keyOrClose⟩
  | t => (scalar? t).map fun j => ⟨stack, .after j⟩

/-- Reads the token behind the value `j`. -/
def follow (stack : List Frame) (j : Json) (t : Token) : Option State :=
  match stack, t with
  -- behind a comma no container may close
  | .items before :: rest, .comma => some ⟨.items (j :: before) :: rest, .value⟩
  | .items before :: rest, .closeArray => some ⟨rest, .after (.arr (j :: before).reverse)⟩
  | .members before key :: rest, .comma => some ⟨rest, .key ((key, j) :: before)⟩
  | .members before key :: rest, .closeObject =>
    some ⟨rest, .after (.obj ((key, j) :: before).reverse)⟩
  | _, _ => none

/-- Reads one token. -/
def step (s : State) (t : Token) : Option State :=
  match s.want with
  | .value => startValue s.stack t
  | .itemOrClose =>
    -- only an empty array closes here
    if t = .closeArray then some ⟨s.stack, .after (.arr [])⟩
    else startValue (.items [] :: s.stack) t
  | .keyOrClose =>
    match t with
    | .closeObject => some ⟨s.stack, .after (.obj [])⟩
    | .str k => some ⟨s.stack, .colon [] k⟩
    | _ => none
  | .key before =>
    match t with
    | .str k => some ⟨s.stack, .colon before k⟩
    | _ => none
  | .colon before k =>
    if t = .colon then some ⟨.members before k :: s.stack, .value⟩ else none
  | .after j => follow s.stack j t

/-- The value that was read, if it is complete. -/
def finish : State → Option Json
  | ⟨[], .after j⟩ => some j
  | _ => none

end Parser

/-- The value that the tokens spell. -/
def ofTokens? (ts : List Token) : Option Json :=
  (ts.foldlM Parser.step ⟨[], .value⟩).bind Parser.finish

/-- The value of a JSON text; none if it is not exactly one value. -/
def parse? (s : String) : Option Json := (tokens? s.toList).bind ofTokens?

end Sdg.Json
