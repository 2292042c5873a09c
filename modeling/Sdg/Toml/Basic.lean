/-!
# Settings files

The part of TOML that settings are written in: a file is a list of named values, and a value is a
text, a truth value or a list of texts. Numbers, dates and tables are no values of a setting.
-/

namespace Sdg.Toml

/-- The value of a setting. -/
inductive Value where
  | text (s : String)
  | bool (b : Bool)
  | texts (l : List String)
  deriving DecidableEq, Repr

/-- A named value. -/
abbrev Entry := String × Value

end Sdg.Toml
