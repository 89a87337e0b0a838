import PointsTo.Analysis.Schedule

/-! Connects a call with the formals, the results and the receiver of its callee. -/
namespace PointsTo.Run

/-- Binds arguments to formals, both in order, up to the first formal without a local. -/
def bindEach (p : Problem) (stmt : Option StmtId) (caller callee : ContextId) :
    List CallArg → List (Option ValueId) → Run (List NodeId)
  | a :: args, some formal :: formals => do
    match ← argument p a caller stmt with
    | none => bindEach p stmt caller callee args formals
    | some source =>
      let target ← value p callee formal none
      let new ← flow source target .copy stmt
      return new.toList ++ (← bindEach p stmt caller callee args formals)
  | _, _ => return []

/-- Binds the arguments after the first `skip` ones to the formals after the first `offset` ones.
Gives the sources of the new edges. -/
def bindArguments (p : Problem) (site : StaticSite) (caller : ContextId) (callee : MethodId)
    (calleeContext : ContextId) (skip offset : Nat) : Run (List NodeId) := do
  match site.args with
  | none => return []
  | some args =>
    let formals := (← p.scene.parameterLocals callee).toList
    bindEach p site.stmt caller calleeContext (args.drop skip) (formals.drop offset)

/-- Connects one returned value with the target of a call. -/
def bindReturn (p : Problem) (callee : MethodId) (calleeContext : ContextId) (target : NodeId)
    (i : StmtId) : Run (List NodeId) := do
  match (← p.scene.stmt i).returned? with
  | none => return []
  | some v =>
    match ← p.scene.value v with
    | .var .. =>
      let source ← value p calleeContext v (some i)
      return (← flow source target .copy (some i)).toList
    | .constant _ | .expr _ => return []
    | _ => fail (.unexpectedReturn callee v)

/-- Connects the returned locals of a callee with the target of the call. -/
def bindReturns (p : Problem) (site : StaticSite) (caller : ContextId) (callee : MethodId)
    (calleeContext : ContextId) : Run (List NodeId) := do
  match ← targetNode p site caller with
  | none => return []
  | some target =>
    return (← (← p.scene.returnStmts callee).mapM
      (bindReturn p callee calleeContext target)).flatten

/-- The node that holds the receiver of a method; `none` for a static one. -/
def receiverNode (p : Problem) (callee : MethodId) (calleeContext : ContextId) :
    Run (Option NodeId) := do
  if (← p.scene.method callee).isStatic then return none
  match ← p.scene.receiverLocal? callee with
  | none => fail (.missingReceiverBinding callee)
  | some v => return some (← value p calleeContext v (← p.scene.receiverStmt? callee))

/-- Binds the receiver of a callee to a node. -/
def bindReceiverTo (p : Problem) (source : NodeId) (callee : MethodId)
    (calleeContext : ContextId) (stmt : Option StmtId) : Run (List NodeId) := do
  match ← receiverNode p callee calleeContext with
  | none => return []
  | some target => return (← flow source target .self stmt).toList

/-- Binds the receiver of a callee to the base of the call. -/
def bindReceiverToBase (p : Problem) (site : StaticSite) (caller : ContextId)
    (callee : MethodId) (target : NodeId) : Run (List NodeId) := do
  match site.receiver with
  | none =>
    if (← p.scene.method callee).isConstructor then
      fail (.constructorWithoutReceiver callee site.stmt)
    return []
  | some v =>
    if !(← p.scene.value v).isPointer then fail (.receiverNotPointer v site.stmt)
    let source ← value p caller v site.stmt
    return (← flow source target .self site.stmt).toList

/-- Binds the receiver of a callee: to the object that the call is dispatched on, to the receiver
that a function value is bound to, or to the base of the call. -/
def bindReceiver (p : Problem) (site : StaticSite) (caller : ContextId)
    (object : Option NodeId) (callee : MethodId) (calleeContext : ContextId) :
    Run (List NodeId) := do
  match ← receiverNode p callee calleeContext with
  | none => return []
  | some target =>
    match object with
    | none => bindReceiverToBase p site caller callee target
    | some o =>
      match (← node o).function? with
      | none =>
        update p target o
        return []
      | some f =>
        match f.receiver with
        | none => return []
        | some bound => return (← flow bound target .self site.stmt).toList

/-- Makes a callee run under a context. -/
def enter (p : Problem) (callee : MethodId) (calleeContext : ContextId) : Run Unit := do
  reach p callee
  schedule callee calleeContext

end PointsTo.Run
