import PointsTo.Flow.Location
import PointsTo.Platform.ApiName

/-! Nodes of the flow graph. -/
namespace PointsTo

/-- What is attached to a node that calls can be dispatched on. Calls come with the context that
they are made in. -/
structure PointerInfo where
  dynamicCalls : List (SiteId × ContextId) := []
  unknownCalls : List (SiteId × ContextId) := []
  /-- Calls with a known callee that are made once for each receiver object. -/
  instanceCalls : List (SiteId × ContextId) := []
  /-- Whether the node is a callback handed to the platform. -/
  isCallback : Bool := false
  /-- The storage and the key that the node is linked to. -/
  link : Option (String × String) := none

def PointerInfo.hasCalls (i : PointerInfo) : Bool :=
  !i.dynamicCalls.isEmpty || !i.unknownCalls.isEmpty || !i.instanceCalls.isEmpty

/-- Where a bound function got its first arguments. -/
structure Binding where
  site : SiteId
  /-- The number of arguments that are already there. -/
  offset : Nat
  context : ContextId
deriving DecidableEq

/-- A function as an object. -/
structure FunctionInfo where
  method : MethodId
  binding : Option Binding := none
  /-- The receiver that the function is bound to. -/
  receiver : Option NodeId := none
deriving DecidableEq

inductive NodeKind where
  | var (info : PointerInfo)
  /-- The variable that holds the receiver of a method. -/
  | receiver (info : PointerInfo)
  | globalObject (info : PointerInfo)
  | fieldRef (base : NodeId) (key : FieldKey)
  | staticField (info : PointerInfo)
  | objectField
  | allocation (owner : Option String)
  | container (kind : Container) (element : Option NodeId)
  | function (info : FunctionInfo)
  | slot
  | other

structure Node where
  context : ContextId
  location : Location
  stmt : Option StmtId
  kind : NodeKind
  /-- The field references through this node. -/
  fieldRefs : Array NodeId := #[]
  /-- The field nodes of this object. -/
  fields : List (FieldKey × NodeId) := []

namespace Node

def value? (n : Node) : Option ValueId :=
  match n.location with
  | .value v => some v
  | _ => none

def pointer? (n : Node) : Option PointerInfo :=
  match n.kind with
  | .var info | .receiver info | .globalObject info | .staticField info => some info
  | _ => none

/-- Changes what is attached to a pointer; other nodes stay as they are. -/
def mapPointer (n : Node) (f : PointerInfo → PointerInfo) : Node :=
  match n.kind with
  | .var info => { n with kind := .var (f info) }
  | .receiver info => { n with kind := .receiver (f info) }
  | .globalObject info => { n with kind := .globalObject (f info) }
  | .staticField info => { n with kind := .staticField (f info) }
  | _ => n

def function? (n : Node) : Option FunctionInfo :=
  match n.kind with
  | .function info => some info
  | _ => none

def isFunction (n : Node) : Bool := n.function?.isSome

def isReceiver (n : Node) : Bool :=
  match n.kind with
  | .receiver _ => true
  | _ => false

def isGlobalObject (n : Node) : Bool :=
  match n.kind with
  | .globalObject _ => true
  | _ => false

/-- The nodes that points-to sets are made of. -/
def isObject (n : Node) : Bool :=
  match n.kind with
  | .allocation _ | .container .. | .function _ => true
  | _ => false

/-- The class of an object that is not a function. -/
def objectClass? (n : Node) : Option String :=
  match n.kind with
  | .allocation owner => owner
  | .container kind _ => some kind.className
  | _ => none

def container? (n : Node) : Option Container :=
  match n.kind with
  | .container kind _ => some kind
  | _ => none

def element? (n : Node) : Option NodeId :=
  match n.kind with
  | .container _ element => element
  | _ => none

/-- The base and the field of a field reference. -/
def fieldRef? (n : Node) : Option (NodeId × FieldKey) :=
  match n.kind with
  | .fieldRef base key => some (base, key)
  | _ => none

end Node

end PointsTo
