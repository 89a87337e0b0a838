import PointsTo.Model.Basic

/-! Calls with a known callee. -/
namespace PointsTo.Run

/-- Binds the arguments that a bound function already has; gives the number of its formals that
are taken and the sources of the new edges. -/
def bindApplied (p : Problem) (object : Option NodeId) (callee : MethodId)
    (calleeContext : ContextId) : Run (Nat × List NodeId) := do
  match object with
  | none => return (0, [])
  | some o =>
    match (← node o).function?.bind (·.binding) with
    | none => return (0, [])
    | some binding =>
      match (← get).calls.sites.static? binding.site with
      | none => return (binding.offset, [])
      | some site =>
        return (binding.offset,
          ← bindArguments p site binding.context callee calleeContext 1 0)

/-- Connects a call with the body of its callee. -/
def wire (p : Problem) (site : StaticSite) (caller : ContextId) (object : Option NodeId) :
    Run (List NodeId) := do
  let callee := site.callee
  if !(← p.scene.method callee).hasBody then return []
  let _ ← summarize p callee
  let calleeContext ← calleeContext p site caller object callee
  let (offset, applied) ← bindApplied p object callee calleeContext
  let args ← bindArguments p site caller callee calleeContext 0 offset
  let results ← bindReturns p site caller callee calleeContext
  let receiver ← bindReceiver p site caller object callee calleeContext
  enter p callee calleeContext
  return applied ++ args ++ results ++ receiver

/-- Makes a call under a context, on an object if it is dispatched. Gives the nodes that became new
sources. -/
def call (p : Problem) (site : StaticSite) (caller : ContextId) (object : Option NodeId) :
    Run (List NodeId) := do
  match ← Model.find? p site object with
  | some model => model.handle p site caller object
  | none => wire p site caller object

end PointsTo.Run
