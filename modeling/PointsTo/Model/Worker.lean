import PointsTo.Analysis.Schedule
import PointsTo.Analysis.Synthetic
import PointsTo.Model.Storage
import PointsTo.Scene.Files

/-! Worker threads. Each worker script has one slot for the messages of each direction. The worker
object is connected with the slots of its script through two hidden fields. -/
namespace PointsTo.Model.Worker

/-- Where messages go. -/
inductive Direction where
  | toWorker | toHost
deriving DecidableEq

namespace Direction

def slotKey : Direction → String
  | .toWorker => "host->worker"
  | .toHost => "worker->host"

def fieldName : Direction → String
  | .toWorker => "%toWorker"
  | .toHost => "%toHost"

end Direction

def slot (script : String) (d : Direction) : Run NodeId :=
  Run.grow (Growing.slot ("worker:" ++ script) d.slotKey)

/-- Whether a call is made by the side that started the worker. -/
def isOnHost (p : Problem) (site : StaticSite) : Run Bool := do
  return (← p.scene.classOfMethod site.callee).name == Platform.workerClass

/-- The slot of the script that the caller belongs to. -/
def ownSlot (p : Problem) (site : StaticSite) (d : Direction) : Run NodeId := do
  slot (← p.scene.fileOfMethod site.caller).name d

/-- The hidden field of the workers that a call is made on. -/
def field (p : Problem) (site : StaticSite) (c : ContextId) (d : Direction) :
    Run (Option NodeId) := do
  match site.receiver with
  | none =>
    Run.note (.workerWithoutReceiver site.id)
    return none
  | some v =>
    let base ← Run.value p c v site.stmt
    return some (← Run.grow (Growing.fieldRef base (.named d.fieldName)))

/-- Starts the module code of a script and connects the worker with its slots. -/
def launch (p : Problem) (site : StaticSite) (c : ContextId) (file : FileId) :
    Run (List NodeId) := do
  let script ← p.scene.file file
  Run.addEntry p script.moduleMethod
  let _ ← Run.onCalls (·.addEdge site.id site.caller script.moduleMethod .special)
  let inbox ← slot script.name .toWorker
  let outbox ← slot script.name .toHost
  let sent ←
    match ← field p site c .toWorker with
    | some f => Run.flow f inbox .load site.stmt
    | none => pure none
  let received ←
    match ← field p site c .toHost with
    | some f => Run.flow outbox f .write site.stmt
    | none => pure none
  return sent.toList ++ received.toList

def start (p : Problem) (site : StaticSite) (c : ContextId) : Run (List NodeId) := do
  match ← constantArgument? p site with
  | none =>
    Run.note (.scriptNotConstant site.id)
    return []
  | some name =>
    match p.scene.fileNamed? name with
    | none =>
      Run.note (.scriptNotFound name)
      return []
    | some file => launch p site c file

/-- Sends the first argument. -/
def send (p : Problem) (site : StaticSite) (c : ContextId) (channel : NodeId)
    (kind : EdgeKind) : Run (List NodeId) := do
  match ← Run.argumentAt p site c 0 with
  | some data => return (← Run.flow data channel kind site.stmt).toList
  | none => return []

def post (p : Problem) (site : StaticSite) (c : ContextId) : Run (List NodeId) := do
  if ← isOnHost p site then
    match ← field p site c .toWorker with
    | some f => send p site c f .write
    | none => return []
  else send p site c (← ownSlot p site .toHost) .copy

/-- Calls the message handler with what comes from a channel. -/
def deliver (p : Problem) (site : StaticSite) (c : ContextId) (channel : NodeId)
    (index : Nat) : Run (List NodeId) := do
  match ← Run.argumentAt p site c index with
  | none =>
    Run.note (.handlerNotPointer site.id)
    return []
  | some handler =>
    match ← Run.callPointer site c handler [.node channel] with
    | some _ => return [channel]
    | none => return []

/-- Registers the argument at a position as a message handler. -/
def receive (p : Problem) (site : StaticSite) (c : ContextId) (index : Nat) :
    Run (List NodeId) := do
  if ← isOnHost p site then
    match site.stmt with
    | none =>
      Run.note (.handlerWithoutStatement site.id)
      return []
    | some stmt =>
      match ← field p site c .toHost with
      | none => return []
      | some f =>
        let received ← Run.grow (Growing.temporary c stmt)
        let new ← Run.flow f received .load site.stmt
        return new.toList ++ (← deliver p site c received index)
  else deliver p site c (← ownSlot p site .toWorker) index

def handle (p : Problem) (api : ApiName) (site : StaticSite) (c : ContextId) :
    Run (List NodeId) :=
  match api with
  | .workerConstructor => start p site c
  | .workerPostMessage => post p site c
  | .workerOnMessage => receive p site c 0
  | .workerAddEventListener | .workerOn => receive p site c 1
  | _ => return []

end PointsTo.Model.Worker
