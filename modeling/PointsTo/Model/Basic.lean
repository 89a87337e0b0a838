import PointsTo.Model.Containers
import PointsTo.Model.Reflection
import PointsTo.Model.Sdk
import PointsTo.Model.TaskPool
import PointsTo.Model.Worker

/-! The models of platform methods. A model takes over a call in place of the usual wiring of
arguments, results and receiver. -/
namespace PointsTo

inductive Model where
  | storage | reflection | taskPool | worker | sdk | container
deriving DecidableEq

namespace Model

/-- The models in the order in which they are asked. -/
def all : List Model := [.storage, .reflection, .taskPool, .worker, .sdk, .container]

/-- The modelled method that a callee is, by its class and its name. -/
def apiOf? (p : Problem) (callee : MethodId) : Run (Option ApiName) := do
  let decl ← p.scene.method callee
  return ApiName.of? (← p.scene.classOfMethod callee).name decl.name

/-- The function method that a call names, if it is made on a function. -/
def reflective? (site : StaticSite) (object : Option NodeId) : Run (Option ApiName) := do
  match object with
  | none => return none
  | some o =>
    if (← Run.node o).isFunction then
      return ApiName.of? Platform.functionClass site.signature.name
    else return none

/-- The container method that a call names, if it is made on a container. -/
def containerApi? (site : StaticSite) (object : Option NodeId) : Run (Option ApiName) := do
  match object with
  | none => return none
  | some o =>
    match (← Run.node o).container? with
    | some kind => return ApiName.of? kind.className site.signature.name
    | none => return none

/-- Whether a callee is a platform method that only the general model covers. -/
def isGeneral (p : Problem) (callee : MethodId) : Run Bool := do
  let decl ← p.scene.method callee
  let owner ← p.scene.classOfMethod callee
  return !decl.hasBody && owner.isPlatform && !Platform.isReceiverDependent owner.name &&
    (ApiName.of? owner.name decl.name).isNone

/-- Whether a model takes over a call that is dispatched on the given object. -/
def accepts (p : Problem) (site : StaticSite) (object : Option NodeId) : Model → Run Bool
  | .storage => do
    return ((← apiOf? p site.callee).map fun a => a.isStorageWrite || a.isStorageRead).getD false
  | .reflection => do return (← reflective? site object).isSome
  | .taskPool => do return ((← apiOf? p site.callee).map ApiName.isTask).getD false
  | .worker => do return ((← apiOf? p site.callee).map ApiName.isWorker).getD false
  | .sdk => isGeneral p site.callee
  | .container => do return (← containerApi? site object).isSome

/-- The first model that takes over a call. -/
def find? (p : Problem) (site : StaticSite) (object : Option NodeId) : Run (Option Model) :=
  all.findM? (accepts p site object)

/-- Wires a call that a model has accepted. Gives the nodes that became new sources. -/
def handle (p : Problem) (site : StaticSite) (c : ContextId) (object : Option NodeId)
    (m : Model) : Run (List NodeId) := do
  match m with
  | .sdk => Sdk.handle p site c
  | .reflection =>
    match ← reflective? site object, object with
    | some api, some o => Reflection.handle p api site c o
    | _, _ => return []
  | .container =>
    match ← containerApi? site object, object with
    | some api, some o => Containers.handle p api site c o
    | _, _ => return []
  | .storage | .taskPool | .worker =>
    match ← apiOf? p site.callee with
    | none => return []
    | some api =>
      match m with
      | .storage => Storage.handle p api site c
      | .taskPool => TaskPool.handle p api site c
      | _ => Worker.handle p api site c

end Model

end PointsTo
