import PointsTo.Flow.Graph
import PointsTo.Points.DiffTable
import PointsTo.Queue

/-! Passes objects along the edges of the flow graph until every set is stable. -/
namespace PointsTo

structure Solver where
  graph : FlowGraph
  points : DiffTable
  /-- The number of address edges that have been taken into account. -/
  cursor : Nat
  /-- The nodes whose sets grew. -/
  queue : Queue NodeId := {}
  /-- The nodes with calls, and the objects that they got. -/
  receivers : Std.TreeMap NodeId (Std.TreeSet NodeId) := ∅
  /-- Whether some set grew. -/
  changed : Bool := false

abbrev Solving := EStateM Failure Solver

namespace Solving

/-- Works on the graph. -/
def onGraph {α : Type} (m : Growing α) : Solving α := fun s =>
  let graph := s.graph
  let s := { s with graph := {} }
  match m graph with
  | .ok a graph => .ok a { s with graph }
  | .error f graph => .error (.fault f) { s with graph }

/-- Works on the points-to sets of a node, which is queued if its set grew. -/
def grow (n : NodeId) (f : DiffTable → Bool × DiffTable) : Solving Unit := modify fun s =>
  let (grew, points) := f s.points
  if grew then { s with points, changed := true, queue := s.queue.push n } else { s with points }

def join (n : NodeId) (objects : ObjectSet) : Solving Unit := grow n (·.join n objects)

/-- Puts the objects of the new address edges into the sets of their targets. -/
def addAddresses : List EdgeId → Solving Unit
  | [] => return
  | e :: rest => do
    modify fun s => { s with cursor := s.cursor + 1 }
    if let some edge := (← get).graph.edge? e then
      grow edge.target (·.add edge.target edge.source)
    addAddresses rest

/-- Connects the field of an object with the variables that are loaded from it and stored in it. -/
def connect (field : NodeId) (loads stores : List NodeId) : Solving Unit := do
  loads.forM fun target => do
    if (← onGraph (Growing.addEdge field target .copy none)).isSome then
      join target ((← get).points.get field)
  stores.forM fun source => do
    if (← onGraph (Growing.addEdge source field .copy none)).isSome then
      join field ((← get).points.get source)

/-- Serves the loads and stores through one field reference for the new objects of its base. -/
def access (objects : List NodeId) (fieldRef : NodeId) : Solving Unit := do
  let graph := (← get).graph
  let loads := graph.successors fieldRef .load
  let stores := graph.predecessors fieldRef .write
  if loads.isEmpty && stores.isEmpty then return
  objects.forM fun object => do
    if (← onGraph (Growing.node object)).isObject then
      if let some field ← onGraph (Growing.fieldOf fieldRef object) then
        connect field loads stores

/-- Remembers the new objects of a node that calls are dispatched on. -/
def report (n : NodeId) (objects : List NodeId) : Solving Unit := do
  let hasCalls := ((← onGraph (Growing.node n)).pointer?.map (·.hasCalls)).getD false
  if hasCalls then
    modify fun s =>
      let old := (s.receivers[n]?).getD ∅
      { s with receivers := s.receivers.insert n (objects.foldl (·.insert ·) old) }

/-- Passes objects on from a node. -/
def propagate (n : NodeId) (objects : ObjectSet) : Solving Unit := do
  ((← get).graph.copySuccessors n).forM (join · objects)
  let listed := (← get).points.collection.enumerate objects
  (← onGraph (Growing.node n)).fieldRefs.toList.forM (access listed)
  report n listed

/-- Passes on what a node has pending. -/
def process (n : NodeId) : Solving Unit := do
  let points := (← get).points
  if points.hasPending n then
    let objects := points.pendingOf n
    modify fun s => { s with points := s.points.flush n }
    propagate n objects

/-- Empties the queue. -/
def drain : (fuel : Nat) → Solving Unit
  | 0 => throw .outOfFuel
  | fuel + 1 => do
    match (← get).queue.pop? with
    | none => return
    | some (n, queue) =>
      modify fun s => { s with queue }
      process n
      drain fuel

/-- Takes the new address edges, the given objects and the nodes with new edges into account. -/
def start (retrigger : List NodeId) (updates : List (NodeId × ObjectSet)) : Solving Unit := do
  let s ← get
  addAddresses (s.graph.addressEdges.toList.drop s.cursor)
  updates.forM fun update => join update.1 update.2
  retrigger.forM fun n => do
    let objects := (← get).points.get n
    if !objects.isEmpty then propagate n objects

/-- More than the times that a set can grow: there are at most as many objects as nodes and
elements, and at most as many field references as nodes for each of them. -/
def budget (s : Solver) (updates : List (NodeId × ObjectSet)) : Nat :=
  let nodes := s.graph.nodes.size
  let elements := s.points.weight + updates.foldr (fun u n => u.2.toList.length + n) 0
  (nodes + nodes * (nodes + elements) + updates.length) * (nodes + elements) + 1

def solve (retrigger : List NodeId) (updates : List (NodeId × ObjectSet)) : Solving Unit := do
  let fuel := budget (← get) updates
  start retrigger updates
  drain fuel

end Solving

end PointsTo
