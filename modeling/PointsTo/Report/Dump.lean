import PointsTo.Analysis.State
import PointsTo.Report.NodeText

/-! The points-to sets of all variables, whatever their context, by the method that declares
them. -/
namespace PointsTo

/-- The texts of the objects that each variable points to. -/
structure Dump where
  locals : Std.TreeMap (MethodId × ValueId) (Std.TreeSet String) := ∅
  globals : Std.TreeMap String (Std.TreeSet String) := ∅

namespace Dump

def extend (old : Option (Std.TreeSet String)) (texts : List String) : Std.TreeSet String :=
  texts.foldl (·.insert ·) (old.getD ∅)

def addGlobal (d : Dump) (name : String) (texts : List String) : Dump :=
  { d with globals := d.globals.insert name (extend d.globals[name]? texts) }

def addLocal (d : Dump) (m : MethodId) (v : ValueId) (texts : List String) : Dump :=
  { d with locals := d.locals.insert (m, v) (extend d.locals[(m, v)]? texts) }

/-- Files the set of one node. -/
def add (scene : Scene) (s : State) (d : Dump) (n : NodeId) : Except Fault Dump := do
  let texts ← (s.points.get n).toList.mapM (s.graph.nodeText scene)
  match (← s.graph.node n).value? with
  | none => return d.addGlobal (← s.graph.nodeText scene n) texts
  | some v =>
    match scene.methods.toList.find? (·.declares v) with
    | some m => return d.addLocal m.id v texts
    | none => return d.addGlobal (← scene.text v) texts

def ofState (scene : Scene) (s : State) : Except Fault Dump :=
  s.points.keys.foldlM (add scene s) {}

def setLine (name : String) (texts : Std.TreeSet String) : String :=
  "\t" ++ name ++ " (" ++ toString texts.size ++ ") ==> \x7b " ++ " ".intercalate texts.toList ++
    " \x7d"

/-- The line of a local, after the line of its method if it is the first of its locals. -/
def localLines (scene : Scene) : (previous : Option MethodId) →
    List ((MethodId × ValueId) × Std.TreeSet String) → List (Except Fault String)
  | _, [] => []
  | previous, ((m, v), texts) :: rest =>
    let heading := (scene.method m).map fun decl => m.label ++ " - " ++ decl.signature.text
    let line := (scene.text v).map (setLine · texts)
    (if previous = some m then [] else [heading]) ++ line :: localLines scene (some m) rest

def globalsHeading : String := "<globals>"

def globalLines (d : Dump) : List String :=
  if d.globals.isEmpty then []
  else globalsHeading :: d.globals.toList.map fun entry => setLine entry.1 entry.2

/-- The lines up to the first that cannot be made, and why it cannot. -/
def untilFault : List (Except Fault String) → List String × Option Fault
  | [] => ([], none)
  | .ok line :: rest =>
    let (lines, fault) := untilFault rest
    (line :: lines, fault)
  | .error fault :: _ => ([], some fault)

def lines (scene : Scene) (d : Dump) : List String × Option Fault :=
  untilFault (localLines scene none d.locals.toList ++ d.globalLines.map .ok)

end Dump

end PointsTo
