import PointsTo.Flow.Graph
import PointsTo.Scene.Text

/-! How the parts of the graphs are written in reports. -/
namespace PointsTo

def FieldKey.text : FieldKey → String
  | .named name => "Named(" ++ Text.quoted name ++ ")"
  | .element => "Element"

def Synthetic.text : Synthetic → String
  | .result site => "SdkReturn \x7b call_site: " ++ site.label ++ " \x7d"
  | .parameter method index =>
    "FabricatedParam \x7b method: " ++ method.label ++ ", index: " ++ toString index ++ " \x7d"
  | .receiver method => "FabricatedThis \x7b method: " ++ method.label ++ " \x7d"
  | .containerCopy site => "ContainerCopy \x7b call_site: " ++ site.label ++ " \x7d"

def Location.text (s : Scene) : Location → Except Fault String
  | .value v => s.text v
  | .field object key => return object.label ++ "." ++ key.text
  | .fieldRef base key => return base.label ++ "->" ++ key.text
  | .bound origin site => return "bound " ++ origin.label ++ "@" ++ site.label
  | .synthetic object => return object.text
  | .slot space key => return space ++ "[" ++ key ++ "]"
  | .temporary stmt => return "%tmp@" ++ stmt.label
  | .globalObject => return Name.globalObject

/-- A node with its context and what it stands for. -/
def FlowGraph.nodeText (g : FlowGraph) (s : Scene) (n : NodeId) : Except Fault String := do
  let node ← g.node n
  let place ← node.location.text s
  return n.label ++ ":" ++ toString node.context.index ++ ":" ++ place

/-- What is said of an object whatever its context: the signature of a function, or the class. -/
def FlowGraph.objectName (g : FlowGraph) (s : Scene) (object : NodeId) : Except Fault String := do
  let node ← g.node object
  match node.function? with
  | some f => return "fn " ++ (← s.method f.method).signature.text
  | none => return node.objectClass?.getD "?"

def EdgeKind.text : EdgeKind → String
  | .address => "Address"
  | .copy => "Copy"
  | .load => "Load"
  | .write => "Write"
  | .self => "This"
  | .capture => "InterProceduralCopy"

end PointsTo
