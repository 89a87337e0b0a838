import PointsTo.Analysis.Synthetic

/-! Platform methods without a model of their own. A call returns one object for each call site if
the declared result is a class, and every callback among the arguments is assumed to be called. -/
namespace PointsTo.Model.Sdk

def isCallback (p : Problem) : CallArg → Run Bool
  | .node _ => return false
  | .value v => do
    match ← p.scene.value v with
    | .var _ type => return type.isFunction
    | _ => return false

/-- Has the target of the call point to the returned object. -/
def answer (p : Problem) (site : StaticSite) (c : ContextId) : Run Unit := do
  match site.target, (← p.scene.method site.callee).returnType with
  | some v, .object owner =>
    let object ← Run.grow (Growing.synthetic c (.result site.id) (some owner))
    let target ← Run.value p c v site.stmt
    Run.address object target site.stmt
  | _, _ => return

/-- Calls an argument if it is a callback. -/
def callBack (p : Problem) (site : StaticSite) (c : ContextId) (a : CallArg) :
    Run (List NodeId) := do
  if !(← isCallback p a) then return []
  match ← Run.argument p a c site.stmt with
  | none => return []
  | some callback =>
    Run.mapPointer callback fun i => { i with isCallback := true }
    match ← Run.callPointer site c callback [] with
    | some _ => return [callback]
    | none => return []

def handle (p : Problem) (site : StaticSite) (c : ContextId) : Run (List NodeId) := do
  answer p site c
  return (← (site.args.getD []).mapM (callBack p site c)).flatten

end PointsTo.Model.Sdk
