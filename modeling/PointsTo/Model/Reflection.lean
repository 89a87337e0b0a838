import PointsTo.Analysis.Binding

/-! Calls of functions through `call`, `apply` and `bind`. -/
namespace PointsTo.Model.Reflection

/-- Loads every formal of the callee from the elements of the argument array. -/
def spread (p : Problem) (site : StaticSite) (c : ContextId) (calleeContext : ContextId) :
    Run (List NodeId) := do
  match ← Run.argumentAt p site c 1 with
  | none => return []
  | some array =>
    let elements ← Run.grow (Growing.fieldRef array .element)
    let formals := (← p.scene.parameterLocals site.callee).toList.filterMap id
    return (← formals.mapM fun v => do
      let target ← Run.value p calleeContext v none
      return (← Run.flow elements target .load site.stmt).toList).flatten

/-- Runs the function with the first argument as its receiver. -/
def invoke (p : Problem) (site : StaticSite) (c : ContextId) (function : NodeId)
    (spreads : Bool) : Run (List NodeId) := do
  let callee := site.callee
  if !(← p.scene.method callee).hasBody then return []
  let _ ← Run.summarize p callee
  let calleeContext ← Run.calleeContext p site c (some function) callee
  let args ←
    if spreads then spread p site c calleeContext
    else Run.bindArguments p site c callee calleeContext 1 0
  let results ← Run.bindReturns p site c callee calleeContext
  let receiver ←
    match ← Run.argumentAt p site c 0 with
    | some source => Run.bindReceiverTo p source callee calleeContext site.stmt
    | none => pure []
  Run.enter p callee calleeContext
  return args ++ results ++ receiver

/-- Makes a function that remembers its receiver and its first arguments. -/
def bind (p : Problem) (site : StaticSite) (c : ContextId) (function : NodeId) :
    Run (List NodeId) := do
  match ← Run.targetNode p site c with
  | none => return []
  | some target =>
    let binding : Binding := ⟨site.id, (site.args.getD []).length - 1, c⟩
    let receiver ← Run.argumentAt p site c 0
    let bound ← Run.grow (Growing.boundFunction function site.callee binding receiver)
    Run.address bound target site.stmt
    return []

def handle (p : Problem) (api : ApiName) (site : StaticSite) (c : ContextId)
    (function : NodeId) : Run (List NodeId) :=
  match api with
  | .functionCall => invoke p site c function false
  | .functionApply => invoke p site c function true
  | .functionBind => bind p site c function
  | _ => return []

end PointsTo.Model.Reflection
