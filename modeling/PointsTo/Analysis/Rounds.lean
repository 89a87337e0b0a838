import PointsTo.Analysis.Instantiate
import PointsTo.Scene.Files

/-! The rounds of an analysis: instantiate what is reachable, solve, dispatch calls. -/
namespace PointsTo

/-- What a solution has found. -/
structure Solution where
  changed : Bool
  /-- The nodes with calls and their new objects, in ascending order. -/
  receivers : List (NodeId × List NodeId)

namespace Run

/-- Solves for the current graph, with nodes that pass on their whole set and objects to be added
to nodes. -/
def solveWith (retrigger : List NodeId) (updates : List (NodeId × ObjectSet)) :
    Run Solution := fun s =>
  let start : Solver := { graph := s.graph, points := s.points, cursor := s.cursor }
  let s := { s with graph := {}, points := .empty s.points.collection }
  match Solving.solve retrigger updates start with
  | .ok () v =>
    .ok ⟨v.changed, v.receivers.toList.map fun r => (r.1, r.2.toList)⟩
      { s with graph := v.graph, points := v.points, cursor := v.cursor }
  | .error e v => .error e { s with graph := v.graph, points := v.points, cursor := v.cursor }

/-- The objects to be added, node by node in the given order. -/
def updatesIn (order : Enumeration) (updates : Std.TreeMap NodeId ObjectSet) :
    List (NodeId × ObjectSet) :=
  (order.arrange updates.keys).filterMap fun n => (updates[n]?).map (n, ·)

/-- Solves with the waiting nodes and objects, which then no longer wait. -/
def solve (p : Problem) : Run Solution := do
  let (retrigger, updates) ← modifyGet fun s =>
    ((s.retrigger.toList, updatesIn p.settings.updateOrder s.updates),
      { s with retrigger := ∅, updates := ∅ })
  solveWith retrigger updates

/-- The methods to start from. -/
def entryMethods (p : Problem) : Run (List MethodId) :=
  match p.settings.entries with
  | [] => return p.scene.files.toList.map (·.moduleMethod)
  | names => names.mapM fun name => do
    match ← p.scene.methodNamed? name with
    | some m => return m
    | none => fail (.unknownEntry name)

def addEntries (p : Problem) (ms : List MethodId) : Run Unit := ms.forM (addEntry p)

/-- One round; the flag tells whether another one is needed. -/
def round (p : Problem) (fuel : Nat) : Run Bool := do
  modify fun s => { s with rounds := s.rounds + 1 }
  let reached ← expand p fuel
  let solution ← solve p
  solution.receivers.forM fun (n, objects) => discard (receive p n objects)
  let _ ← retry p
  return reached || solution.changed || (← get).hasPending

/-- Rounds until nothing is left to do. The fuel bounds the number of rounds and the work of each
one of them. -/
def rounds (p : Problem) (work : Nat) : (fuel : Nat) → Run Unit
  | 0 => throw .outOfFuel
  | fuel + 1 => do
    if ← round p work then rounds p work fuel

def analyze (p : Problem) (fuel : Nat) : Run Unit := do
  addEntries p (← entryMethods p)
  rounds p fuel fuel

end Run

/-- Analyses a problem from the beginning. -/
def Problem.analyze (p : Problem) (fuel : Nat) : EStateM.Result Failure State Unit :=
  Run.analyze p fuel (State.initial p.settings)

namespace State

/-- The objects that a value points to under any context, in ascending order. -/
def pointsTo (s : State) (scene : Scene) (v : ValueId) : Except Fault (List NodeId) := do
  let instances ← s.graph.nodesOf scene v
  let all := instances.foldl (fun set i => (s.points.get i.2).toList.foldl (·.insert ·) set)
    (∅ : Std.TreeSet NodeId)
  return all.toList

end State

end PointsTo
