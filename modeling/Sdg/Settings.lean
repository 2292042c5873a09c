import Sdg.Json.Basic
import Sdg.Toml.Parser

/-!
# Settings

What can be set about the construction of dependence graphs, and how it is read from a settings
file.
-/

namespace Sdg

structure Settings where
  /-- The function that construction starts from if no other is named. -/
  entry : String
  /-- The functions whose result is a fresh heap object. -/
  allocators : List String
  /-- Whether blocks that decide control the blocks in their scope. -/
  controlScopes : Bool
  /-- Whether the blocks that flow into a phi control it. -/
  phiControl : Bool
  /-- Whether blocks that decide whether to run again control themselves. -/
  selfLoops : Bool
  /-- The function whose direct calls are gathered. -/
  gathered : Option String
  deriving DecidableEq, Repr

namespace Settings

/-- What holds where nothing is set. -/
def standard : Settings :=
  ⟨"main", ["malloc", "calloc", "realloc"], true, true, true, none⟩

instance : Inhabited Settings := ⟨standard⟩

def isAllocator (s : Settings) (name : String) : Bool := s.allocators.contains name

/-- Sets one entry of a settings file, if there is such a setting and it takes such a value. -/
def set? (s : Settings) : Toml.Entry → Option Settings
  | ("entry", .text name) => some { s with entry := name }
  | ("alloc_functions", .texts names) => some { s with allocators := names }
  | ("control_scopes", .bool b) => some { s with controlScopes := b }
  | ("phi_control", .bool b) => some { s with phiControl := b }
  | ("self_loops", .bool b) => some { s with selfLoops := b }
  | ("gather_callsites", .text name) => some { s with gathered := some name }
  | _ => none

/-- The settings of a file. -/
def load? (text : String) : Option Settings := do
  (← Toml.parse? text).foldlM set? standard

def toJson (s : Settings) : Json :=
  .record [("entry", .text s.entry), ("alloc_functions", .arr (s.allocators.map .text)),
    ("control_scopes", .bool s.controlScopes), ("phi_control", .bool s.phiControl),
    ("self_loops", .bool s.selfLoops), ("gather_callsites", .ofOption .text s.gathered)]

end Settings

end Sdg
