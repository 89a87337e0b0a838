import PointsTo.Analysis.Synthetic

/-! Arrays, sets and maps. All elements of a container share one slot, so that neither keys nor
positions are told apart. -/
namespace PointsTo.Model.Containers

/-- The arguments that a method stores in the container. -/
def stored {α : Type} (api : ApiName) (args : List α) : List α :=
  match api with
  | .mapSet => (args.take 2).drop 1
  | .arrayFill => args.take 1
  | .arraySplice => args.drop 2
  | _ => args

def write (p : Problem) (api : ApiName) (site : StaticSite) (c : ContextId) (element : NodeId) :
    Run (List NodeId) := do
  return (← (stored api (site.args.getD [])).mapM fun a => do
    match ← Run.argument p a c site.stmt with
    | some source => return (← Run.flow source element .copy site.stmt).toList
    | none => return []).flatten

def read (p : Problem) (site : StaticSite) (c : ContextId) (element : NodeId) :
    Run (List NodeId) := do
  match ← Run.targetNode p site c with
  | some target => return (← Run.flow element target .copy site.stmt).toList
  | none => return []

/-- Returns a new array with the elements of the receiver and, for a concatenation, with those of
the arguments. -/
def copy (p : Problem) (api : ApiName) (site : StaticSite) (c : ContextId) (element : NodeId) :
    Run (List NodeId) := do
  match ← Run.targetNode p site c with
  | none => return []
  | some target =>
    let array ← Run.grow (Growing.synthetic c (.containerCopy site.id) (some Platform.arrayClass))
    let slot ← Run.grow (Growing.element array)
    Run.address array target site.stmt
    let new ← Run.flow element slot .copy site.stmt
    if api ≠ .arrayConcat then return new.toList
    let others ← (site.args.getD []).mapM fun a => do
      match ← Run.argument p a c site.stmt with
      | none => return []
      | some other =>
        let elements ← Run.grow (Growing.fieldRef other .element)
        return (← Run.flow elements slot .load site.stmt).toList
    return new.toList ++ others.flatten

/-- Calls the first argument with the elements. -/
def forEach (p : Problem) (site : StaticSite) (c : ContextId) (element : NodeId) :
    Run (List NodeId) := do
  match ← Run.argumentAt p site c 0 with
  | none =>
    Run.note (.callbackNotPointer site.id)
    return []
  | some callback =>
    match ← Run.callPointer site c callback [.node element] with
    | some _ => return [element]
    | none => return []

def handle (p : Problem) (api : ApiName) (site : StaticSite) (c : ContextId)
    (container : NodeId) : Run (List NodeId) := do
  let element ← Run.grow (Growing.element container)
  if api.isContainerWrite then write p api site c element
  else if api = .mapGet || api.isContainerRead then read p site c element
  else if api.isContainerCopy then copy p api site c element
  else if api.isForEach then forEach p site c element
  else return []

end PointsTo.Model.Containers
