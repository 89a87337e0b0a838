import PointsTo.Scene.Decl

/-! What the statements and values of a scene say: calls, bindings of formals, types. -/
namespace PointsTo.Scene

/-- The property name of a reference to a global variable. -/
def globalProperty? (s : Scene) (v : ValueId) : Except Fault (Option String) := do
  match ← s.value v with
  | .field base target =>
    if (← s.value base).isGlobalObject then return some target.name else return none
  | _ => return none

/-- References through a heap object. Global properties are plain variables. -/
def isHeapRef (s : Scene) (v : ValueId) : Except Fault Bool := do
  if (← s.value v).isFieldLike then return (← s.globalProperty? v).isNone else return false

/-- The call expression of a statement. -/
def callExpr? (s : Scene) (i : StmtId) : Except Fault (Option ValueId) := do
  match (← s.stmt i).kind with
  | .call expr => return some expr
  | .assign _ source => if (← s.value source).isCall then return some source else return none
  | _ => return none

/-- Whether a statement binds the receiver. -/
def bindsReceiver (s : Scene) (i : StmtId) : Except Fault Bool := do
  match (← s.stmt i).source? with
  | none => return false
  | some source =>
    match ← s.value source with
    | .self _ => return true
    | _ => return false

/-- The statement of a method that binds its receiver. -/
def receiverStmt? (s : Scene) (m : MethodId) : Except Fault (Option StmtId) := do
  (← s.method m).stmts.findM? s.bindsReceiver

/-- The local that holds the receiver. -/
def receiverLocal? (s : Scene) (m : MethodId) : Except Fault (Option ValueId) := do
  match ← s.receiverStmt? m with
  | some i => return (← s.stmt i).target?
  | none => return none

/-- No parameter list has more positions than this. -/
def maxParameters : Nat := (1 <<< 60) - 1

/-- Records the local of a parameter, extending the list up to its position. -/
def bindParameter (slots : Array (Option ValueId)) (index : Nat) (v : ValueId) :
    Except Fault (Array (Option ValueId)) :=
  if index < slots.size then .ok (slots.setIfInBounds index (some v))
  else if index < maxParameters then
    .ok ((slots ++ Array.replicate (index - slots.size) none).push (some v))
  else .error (.parameterRange index)

/-- Takes a statement's binding of a parameter into account. -/
def bindParameters (s : Scene) (slots : Array (Option ValueId)) (i : StmtId) :
    Except Fault (Array (Option ValueId)) := do
  match (← s.stmt i).kind with
  | .assign target source =>
    match ← s.value source with
    | .parameter index _ => bindParameter slots index target
    | _ => return slots
  | _ => return slots

/-- The locals that hold the parameters, by position. -/
def parameterLocals (s : Scene) (m : MethodId) : Except Fault (Array (Option ValueId)) := do
  let decl ← s.method m
  decl.stmts.foldlM s.bindParameters (Array.replicate decl.params.length none)

/-- The statements that return a value. -/
def returnStmts (s : Scene) (m : MethodId) : Except Fault (List StmtId) := do
  (← s.method m).stmts.filterM fun i => return (← s.stmt i).returned?.isSome

def valueType (s : Scene) (v : ValueId) : Except Fault Ty := do
  match ← s.value v with
  | .var _ type | .parameter _ type => return type
  | .self owner | .new owner => return .object owner
  | .newArray element => return .array element
  | .functionRef target => return .function (← s.method target).signature
  | .constant _ => return .primitive "constant"
  | _ => return .unknown

end PointsTo.Scene
