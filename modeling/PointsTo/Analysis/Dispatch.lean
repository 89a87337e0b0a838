import PointsTo.Analysis.Call

/-! Calls whose callees depend on the objects of their receiver. -/
namespace PointsTo.Run

/-- The method that an argument refers to, if it is a function. -/
def callbackOf (p : Problem) : CallArg → Run (Option MethodId)
  | .node _ => return none
  | .value v => do
    match ← p.scene.value v with
    | .functionRef m => return some m
    | _ =>
      match ← p.scene.valueType v with
      | .function target => return p.scene.methodOf? target
      | _ => return none

/-- The method that the class of an object has for a call. -/
def classCallee (p : Problem) (owner : Option String) (name : String) :
    Run (Option MethodId) := do
  match owner.bind p.scene.classNamed? with
  | some c => scan (p.scene.dispatch c name)
  | none => return none

/-- The callees for an object of the given class: by its class, by the declared signature, or else
the callbacks among the arguments. -/
def calleesByClass (p : Problem) (site : DynamicSite) (owner : Option String) :
    Run (List MethodId) := do
  match ← classCallee p owner site.signature.name with
  | some m => return [m]
  | none =>
    match site.prototype with
    | some m => return [m]
    | none =>
      if site.signature.name = Name.pointerCall then return []
      return (← (site.args.getD []).mapM (callbackOf p)).filterMap id

/-- Whether a call on a function runs that function. -/
def runsFunction (name : String) : Bool :=
  name == Name.pointerCall || (ApiName.of? Platform.functionClass name).isSome

/-- The methods that a call may run on an object. -/
def callees (p : Problem) (site : DynamicSite) (object : NodeId) : Run (List MethodId) := do
  let o ← node object
  match o.function? with
  | some f =>
    if runsFunction site.signature.name then return [f.method]
    calleesByClass p site (some Platform.functionClass)
  | none => calleesByClass p site o.objectClass?

/-- Whether a call only makes a bound function. The call edge comes with the call of that one. -/
def binds (site : DynamicSite) (object : Node) : Bool :=
  object.isFunction &&
    ApiName.of? Platform.functionClass site.signature.name == some .functionBind

/-- Makes a call for one of its callees, unless the callee leads back to the caller. -/
def callOn (p : Problem) (site : DynamicSite) (c : ContextId) (object : NodeId) (binds : Bool)
    (callee : MethodId) : Run (List NodeId) := do
  let resolved ← onCalls fun g =>
    let (i, sites) := g.sites.resolve site.id callee
    (i, { g with sites })
  match resolved with
  | none => return []
  | some i =>
    let recursive := (← get).calls.reaches callee site.caller
    if !binds then discard (onCalls (·.addEdge i site.caller callee .dynamic))
    if !binds && recursive then return []
    match (← get).calls.sites.static? i with
    | some resolved => call p resolved c (some object)
    | none => return []

/-- Makes a call on an object for all of its callees. -/
def callAll (p : Problem) (site : DynamicSite) (c : ContextId) (object : NodeId)
    (callees : List MethodId) : Run (List NodeId) := do
  let binds := binds site (← node object)
  return (← callees.mapM (callOn p site c object binds)).flatten

/-- Calls the functions that an object has in the field of the method's name. -/
def callThroughField (p : Problem) (site : DynamicSite) (c : ContextId) (object : NodeId) :
    Run (List NodeId) := do
  if site.signature.name = Name.pointerCall then return []
  if (← node object).isFunction then return []
  let field ← grow (Growing.objectField object (.named site.signature.name))
  let points := (← get).points
  return (← (points.collection.enumerate (points.get field)).mapM fun function => do
    match (← node function).function? with
    | none => return []
    | some f =>
      let key : Dispatch := (site.id, c, function)
      if (← get).fieldDispatched.contains key then return []
      modify fun s => { s with fieldDispatched := s.fieldDispatched.insert key }
      callAll p site c function [f.method]).flatten

/-- Marks a dispatch as resolved; false if it was so before. -/
def claim (d : Dispatch) : Run Bool := modifyGet fun s =>
  (!s.resolved.contains d, { s with resolved := s.resolved.insert d })

/-- Resolves a call on an object by the given rule, each dispatch once. -/
def dispatchWith (i : SiteId) (c : ContextId) (object : NodeId)
    (rule : DynamicSite → Run (List NodeId)) : Run (List NodeId) := do
  if !(← claim (i, c, object)) then return []
  match (← get).calls.sites.dynamic? i with
  | none => return []
  | some site => rule site

/-- Leaves a dispatch for a later attempt through fields. -/
def postpone (d : Dispatch) : Run Unit :=
  modify fun s => { s with unresolved := s.unresolved.push d }

/-- Resolves a call on an object by its class. -/
def dispatch (p : Problem) (i : SiteId) (c : ContextId) (object : NodeId) : Run (List NodeId) :=
  dispatchWith i c object fun site => do
    match ← callees p site object with
    | [] =>
      postpone (i, c, object)
      return []
    | found => callAll p site c object found

/-- Resolves a call on a receiver of unknown type: by the object, or else through its field. -/
def dispatchUnknown (p : Problem) (i : SiteId) (c : ContextId) (object : NodeId) :
    Run (List NodeId) :=
  dispatchWith i c object fun site => do
    match ← callees p site object with
    | [] =>
      postpone (i, c, object)
      callThroughField p site c object
    | found => callAll p site c object found

/-- Makes a call with a known callee on an object. -/
def dispatchInstance (p : Problem) (i : SiteId) (c : ContextId) (object : NodeId) :
    Run (List NodeId) := do
  if !(← claim (i, c, object)) then return []
  match (← get).calls.sites.static? i with
  | none => return []
  | some site => call p site c (some object)

/-- Makes the calls that are attached to a pointer for one new object. -/
def serve (p : Problem) (info : PointerInfo) (object : NodeId) : Run (List NodeId) := do
  if !(← node object).isObject then return []
  let dynamic ← info.dynamicCalls.mapM fun d => dispatch p d.1 d.2 object
  let unknown ← info.unknownCalls.mapM fun d => dispatchUnknown p d.1 d.2 object
  let instances ← info.instanceCalls.mapM fun d => dispatchInstance p d.1 d.2 object
  return dynamic.flatten ++ unknown.flatten ++ instances.flatten

/-- Makes the calls that are attached to a node for its new objects. -/
def receive (p : Problem) (n : NodeId) (objects : List NodeId) : Run (List NodeId) := do
  match (← node n).pointer? with
  | none => return []
  | some info => return (← objects.mapM (serve p info)).flatten

/-- Tries the dispatches without a callee again, through the fields of their objects. -/
def retry (p : Problem) : Run (List NodeId) := do
  return (← (← get).unresolved.toList.mapM fun (i, c, object) => do
    match (← get).calls.sites.dynamic? i with
    | none => return []
    | some site => callThroughField p site c object).flatten

end PointsTo.Run
