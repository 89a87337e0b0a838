import PointsTo.Call.Graph

/-! The call graph as input for a program that draws graphs. -/
namespace PointsTo

def CallType.text : CallType → String
  | .static => "Static"
  | .dynamic => "Dynamic"
  | .special => "Special"

namespace Dot

/-- A character between the quotes of a label. -/
def labelChar : Char → List Char
  | '"' => ['\\', '"']
  | '\\' => ['\\', '\\']
  | '\n' => ['\\', 'l']
  | c => [c]

def label (text : String) : String :=
  "[ label = \"" ++ String.ofList (text.toList.flatMap labelChar) ++ "\" ]"

def line (head text : String) : String := "    " ++ head ++ " " ++ label text ++ "\n"

def nodeLine (s : Scene) (entry : CallNode × Nat) : Except Fault String := do
  return line (toString entry.2) (← s.method entry.1.method).signature.text

def edgeLine (e : CallEdge) : String :=
  line (toString e.caller ++ " -> " ++ toString e.callee) (e.site.label ++ " " ++ e.type.text)

end Dot

/-- Nodes and then edges, in the order in which they were added. -/
def CallGraph.dot (g : CallGraph) (s : Scene) : Except Fault String := do
  let nodes ← g.nodes.toList.zipIdx.mapM (Dot.nodeLine s)
  let edges := g.edges.toList.map Dot.edgeLine
  return "digraph \x7b\n" ++ String.join nodes ++ String.join edges ++ "\x7d\n"

end PointsTo
