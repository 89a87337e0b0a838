import PointsTo.Analysis.State
import PointsTo.Decimal.Quotient
import PointsTo.Report.NodeText

/-! Counts over the results of an analysis. -/
namespace PointsTo

/-- How many pointers point to something, and how many things they point to in total. -/
structure PointsCount where
  pointers : Nat
  relations : Nat
deriving DecidableEq

structure Statistics where
  rounds : Nat
  reachable : Nat
  staticCalls : Nat
  dynamicCalls : Nat
  specialCalls : Nat
  sites : Nat
  /-- The signatures of the methods without a summary, in ascending order. -/
  unhandled : List String
  nodes : Nat
  edges : Nat
  edgesByKind : List (EdgeKind × Nat)
  contexts : Nat
  summaries : Nat
  instances : Nat
  /-- Over nodes. -/
  sensitive : PointsCount
  /-- Over values, whatever their context. -/
  insensitive : PointsCount

namespace Statistics

/-- The pairs of a pointer value and the value of an object that it points to under some context.
A pointer value without any such object is counted too. -/
def valuePoints (s : State) :
    Except Fault (Std.TreeMap ValueId (Std.TreeSet ValueId)) :=
  s.points.keys.foldlM (fun table n => do
    match (← s.graph.node n).value? with
    | none => return table
    | some v =>
      let old := (table[v]?).getD ∅
      let objects ← (s.points.get n).toList.mapM fun o => return (← s.graph.node o).value?
      return table.insert v ((objects.filterMap id).foldl (·.insert ·) old)) ∅

def ofState (scene : Scene) (s : State) : Except Fault Statistics := do
  let values ← valuePoints s
  let unhandled ← (← s.unhandled scene).mapM fun m => return (← scene.method m).signature.text
  return {
    rounds := s.rounds
    reachable := s.calls.reached.size
    staticCalls := s.calls.countOf .static
    dynamicCalls := s.calls.countOf .dynamic
    specialCalls := s.calls.countOf .special
    sites := s.calls.sites.sites.size
    unhandled := unhandled.mergeSort
    nodes := s.graph.nodes.size
    edges := s.graph.edges.size
    edgesByKind := EdgeKind.all.map fun kind => (kind, s.graph.countOf kind)
    contexts := s.contexts.contexts.size
    summaries := s.summaries.size
    instances := s.instantiated.size
    sensitive := ⟨s.points.keys.length,
      s.points.keys.foldr (fun key n => (s.points.get key).size + n) 0⟩
    insensitive := ⟨values.size, values.toList.foldr (fun entry n => entry.2.size + n) 0⟩ }

def countLine (name : String) (n : Nat) : String := "#" ++ name ++ ": " ++ toString n

def pointsLines (title : String) (c : PointsCount) : List String :=
  [title ++ " Points-to Statistics: ", countLine "Pointers" c.pointers,
    countLine "Points-to relations" c.relations,
    "#Avg points-to size: " ++ Decimal.quotient c.relations c.pointers]

def callLines (s : Statistics) : List String :=
  ["Call Graph Statistics: ", countLine "Reachable functions" s.reachable,
    countLine "Static call edges" s.staticCalls, countLine "Dynamic call edges" s.dynamicCalls,
    countLine "Special call edges" s.specialCalls, countLine "Call sites" s.sites,
    countLine "Unhandled functions" s.unhandled.length] ++ s.unhandled.map ("  " ++ ·)

def graphLines (s : Statistics) : List String :=
  ["PAG Statistics: ", countLine "Nodes" s.nodes, countLine "Edges" s.edges] ++
    s.edgesByKind.map (fun e => "  " ++ countLine (e.1.text ++ " edges") e.2) ++
    [countLine "Contexts" s.contexts, countLine "Function summaries" s.summaries,
      countLine "Context-sensitive functions" s.instances]

def frame : String := String.ofList (List.replicate 58 '#')

def rule : String := String.ofList (List.replicate 58 '-')

/-- The lines of the report; `time` is the text of the time that the analysis took. -/
def lines (s : Statistics) (time : String) : List String :=
  [frame, "Analysis time: " ++ time ++ " (" ++ toString s.rounds ++ " rounds)"] ++ s.callLines ++
    [rule] ++ s.graphLines ++ [rule] ++ pointsLines "CS" s.sensitive ++
    pointsLines "CI" s.insensitive ++ [frame]

end Statistics

end PointsTo
