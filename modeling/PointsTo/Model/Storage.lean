import PointsTo.Analysis.Edges

/-! Stores for UI state. Every store and key is one global slot. -/
namespace PointsTo.Model

/-- The string constant that is the first argument of a call. -/
def constantArgument? (p : Problem) (site : StaticSite) : Run (Option String) := do
  match (site.args.getD []).head? with
  | some (.value v) => return (← p.scene.value v).stringConstant?
  | _ => return none

namespace Storage

/-- Connects the slot with the written value and with the target of a read. A link is two-way. -/
def connect (p : Problem) (api : ApiName) (site : StaticSite) (c : ContextId)
    (storage key : String) : Run (List NodeId) := do
  let slot ← Run.grow (Growing.slot storage key)
  let mut new := []
  if api.isStorageWrite then
    if let some source ← Run.argumentAt p site c 1 then
      new := new ++ (← Run.flow source slot .copy site.stmt).toList
  if api.isStorageRead then
    if let some target ← Run.targetNode p site c then
      new := new ++ (← Run.flow slot target .copy site.stmt).toList
      if api.isStorageLink then
        new := new ++ (← Run.flow target slot .copy site.stmt).toList
      Run.mapPointer target fun i => { i with link := some (storage, key) }
  return new

def handle (p : Problem) (api : ApiName) (site : StaticSite) (c : ContextId) :
    Run (List NodeId) := do
  let storage := (← p.scene.classOfMethod site.callee).name
  match ← constantArgument? p site with
  | some key => connect p api site c storage key
  | none =>
    Run.note (.keyNotConstant site.id)
    return []

end Storage

end PointsTo.Model
