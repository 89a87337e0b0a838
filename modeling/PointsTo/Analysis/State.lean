import PointsTo.Queue
import PointsTo.Settings
import PointsTo.Solver
import PointsTo.Summary.Survey

/-! The state of an analysis and the steps that change it. -/
namespace PointsTo

/-- A method under a context. -/
abbrev Activation := ContextId × MethodId

/-- A call site, the context of the call, and an object that the call is dispatched on. -/
abbrev Dispatch := SiteId × ContextId × NodeId

structure State where
  graph : FlowGraph := {}
  points : DiffTable
  /-- The number of address edges that the solver has seen. -/
  cursor : Nat := 0
  calls : CallGraph := {}
  contexts : ContextTable := ∅
  summaries : Std.TreeMap MethodId Summary := ∅
  /-- The captures of the methods that have some. -/
  captures : Std.TreeMap MethodId (List Capture) := ∅
  /-- Which methods hand out one shared object, as far as it was asked. -/
  singletons : Std.TreeMap MethodId Bool := ∅
  /-- What was taken from the agenda. -/
  instantiated : Std.TreeSet Activation := ∅
  /-- The methods that were put on the agenda under some context. -/
  scheduled : Std.TreeSet MethodId := ∅
  agenda : Queue Activation := {}
  entries : Array Activation := #[]
  /-- The instantiated methods with captures. -/
  links : Array Activation := #[]
  /-- The nodes that have to pass on their whole set again. -/
  retrigger : Std.TreeSet NodeId := ∅
  /-- The objects to be added to nodes at the next solution. -/
  updates : Std.TreeMap NodeId ObjectSet := ∅
  resolved : Std.TreeSet Dispatch := ∅
  /-- The dispatches without a callee, which are tried again through fields. -/
  unresolved : Array Dispatch := #[]
  /-- The functions that were called through a field. -/
  fieldDispatched : Std.TreeSet Dispatch := ∅
  /-- The calls made up by the models, by call site, function value and arguments. -/
  synthetic : List ((SiteId × NodeId × List CallArg) × SiteId) := []
  rounds : Nat := 0
  log : Array Notice := #[]

namespace State

def initial (settings : Settings) : State := { points := .empty settings.collection }

/-- Whether a later round may have something to do. -/
def hasPending (s : State) : Bool :=
  !s.agenda.isEmpty || !s.retrigger.isEmpty || !s.updates.isEmpty

/-- The reachable methods of the program that have no summary. -/
def unhandled (s : State) (scene : Scene) : Except Fault (List MethodId) :=
  s.calls.reached.toList.filterM fun m =>
    if s.summaries.contains m then return false
    else return !(← scene.classOfMethod m).isPlatform

end State

abbrev Run := EStateM Failure State

namespace Run

/-- Works on the flow graph. -/
def grow {α : Type} (m : Growing α) : Run α := fun s =>
  let graph := s.graph
  let s := { s with graph := {} }
  match m graph with
  | .ok a graph => .ok a { s with graph }
  | .error f graph => .error (.fault f) { s with graph }

/-- Asks the scene. -/
def scan {α : Type} (q : Scan α) : Run α := fun s =>
  match q s.log with
  | .ok a log => .ok a { s with log }
  | .error f log => .error (.fault f) { s with log }

instance : MonadLift (Except Fault) Run := ⟨fun x => scan (Scan.ask x)⟩

def note (n : Notice) : Run Unit := modify fun s => { s with log := s.log.push n }

def fail {α : Type} (e : AnalysisError) : Run α := throw (.error e)

def node (n : NodeId) : Run Node := grow (Growing.node n)

/-- The field that a field reference denotes in an object. Any other node is noted. -/
def fieldOf (fieldRef object : NodeId) : Run (Option NodeId) := do
  let field ← grow (Growing.fieldOf fieldRef object)
  if field.isNone then note (.notFieldReference fieldRef)
  return field

/-- The node of a value under a context. -/
def value (p : Problem) (c : ContextId) (v : ValueId) (stmt : Option StmtId) : Run NodeId :=
  grow (Growing.value p.scene c v stmt)

/-- Works on the call graph. -/
def onCalls {α : Type} (f : CallGraph → α × CallGraph) : Run α := modifyGet fun s =>
  let (a, calls) := f s.calls
  (a, { s with calls })

/-- Takes up the chosen context. -/
def choose (f : ContextTable → ContextTable.Choice) : Run ContextId := modifyGet fun s =>
  let choice := f s.contexts
  (choice.context, { s with
    contexts := choice.table
    log := choice.notice.elim s.log s.log.push })

end Run

end PointsTo
