import PointsTo.Analysis.Synthetic

/-! Concurrent tasks run their function with the arguments after it. -/
namespace PointsTo.Model.TaskPool

/-- Where the function stands: delayed and periodic tasks name a time first. -/
def functionIndex : ApiName → Nat
  | .taskPoolExecuteDelayed | .taskPoolExecutePeriodically => 1
  | _ => 0

def handle (p : Problem) (api : ApiName) (site : StaticSite) (c : ContextId) :
    Run (List NodeId) := do
  match site.args with
  | none => return []
  | some args =>
    let index := functionIndex api
    match ← Run.argumentAt p site c index with
    | none =>
      Run.note (.taskNotPointer site.id)
      return []
    | some function =>
      match ← Run.callPointer site c function (args.drop (index + 1)) with
      | some _ => return [function]
      | none => return []

end PointsTo.Model.TaskPool
