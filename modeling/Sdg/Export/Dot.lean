import Sdg.Export.Basic

/-!
# Dot text

An exported graph in the language of graph drawing tools. Nodes are boxes with their labels, and
control edges are dashed.
-/

namespace Sdg

namespace Export

/-- A label between quotes; a line end becomes a line break of the drawing. -/
def dotLabelChar (c : Char) : String :=
  if c = '"' then "\\\""
  else if c = '\\' then "\\\\"
  else if c = '\n' then "\\l"
  else c.toString

def dotLabel (s : String) : String := String.join (s.toList.map dotLabelChar)

def dotStyle : EdgeKind → String
  | .control => "style=dashed"
  | .data => ""

def dotNode (position : Nat) (x : ExportNode) : String :=
  "    " ++ toString position ++ " [ label = \"" ++ dotLabel x.label
    ++ "\" fontname=\"Courier New\",shape=box]\n"

def dotEdge (e : ExportEdge) : String :=
  "    " ++ toString e.source ++ " -> " ++ toString e.target ++ " [ label = \"" ++ e.kind.name
    ++ "\" " ++ dotStyle e.kind ++ "]\n"

/-- The dot text of a graph. -/
def toDot (x : Export) : String :=
  "digraph \x7b\n" ++ String.join (x.nodes.zipIdx.map fun (n, i) => dotNode i n)
    ++ String.join (x.edges.map dotEdge) ++ "\x7d\n"

end Export

end Sdg
