/-! The methods of the platform whose behaviour is modelled by hand. -/
namespace PointsTo

namespace Platform

def functionClass : String := "Function"
def arrayClass : String := "Array"
def setClass : String := "Set"
def mapClass : String := "Map"
def taskPoolClass : String := "taskpool"
def taskClass : String := "Task"
def workerClass : String := "ThreadWorker"
def workerScopeClass : String := "ThreadWorkerGlobalScope"

def containerClasses : List String := [arrayClass, setClass, mapClass]

/-- The classes of the stores for UI state. -/
def storageClasses : List String := ["AppStorage", "LocalStorage", "PersistentStorage"]

def workerClasses : List String := [workerClass, workerScopeClass]

/-- Classes whose methods mean nothing without the receiver object. -/
def isReceiverDependent (owner : String) : Bool :=
  containerClasses.contains owner || owner == functionClass

end Platform

/-- The kinds of containers. -/
inductive Container where
  | array | set | map
deriving DecidableEq

namespace Container

def ofClass? (owner : String) : Option Container :=
  if owner = Platform.arrayClass then some .array
  else if owner = Platform.setClass then some .set
  else if owner = Platform.mapClass then some .map
  else none

def className : Container → String
  | .array => Platform.arrayClass
  | .set => Platform.setClass
  | .map => Platform.mapClass

end Container

inductive ApiName where
  | functionCall | functionApply | functionBind
  | arrayPush | arrayUnshift | arrayFill | arraySplice | arrayPop | arrayShift | arrayAt
  | arrayFind | arrayFindLast | arraySlice | arrayConcat | arrayValues | arrayForEach
  | setAdd | setValues | setForEach
  | mapSet | mapGet | mapValues | mapForEach
  | storageSet | storageSetOrCreate | storageSetAndLink | storageSetAndProp
  | storageGet | storageLink | storageProp
  | taskPoolExecute | taskPoolExecuteDelayed | taskPoolExecutePeriodically | taskConstructor
  | workerConstructor | workerPostMessage | workerAddEventListener | workerOn | workerOnMessage
deriving DecidableEq, Repr

namespace ApiName

def functionMethods : List (String × ApiName) :=
  [("call", .functionCall), ("apply", .functionApply), ("bind", .functionBind)]

def arrayMethods : List (String × ApiName) :=
  [("push", .arrayPush), ("unshift", .arrayUnshift), ("fill", .arrayFill),
    ("splice", .arraySplice), ("pop", .arrayPop), ("shift", .arrayShift), ("at", .arrayAt),
    ("find", .arrayFind), ("findLast", .arrayFindLast), ("slice", .arraySlice),
    ("concat", .arrayConcat), ("values", .arrayValues), ("forEach", .arrayForEach)]

def setMethods : List (String × ApiName) :=
  [("add", .setAdd), ("values", .setValues), ("forEach", .setForEach)]

def mapMethods : List (String × ApiName) :=
  [("set", .mapSet), ("get", .mapGet), ("values", .mapValues), ("forEach", .mapForEach)]

def storageMethods : List (String × ApiName) :=
  [("set", .storageSet), ("setOrCreate", .storageSetOrCreate),
    ("setAndLink", .storageSetAndLink), ("setAndProp", .storageSetAndProp),
    ("get", .storageGet), ("link", .storageLink), ("prop", .storageProp)]

def taskPoolMethods : List (String × ApiName) :=
  [("execute", .taskPoolExecute), ("executeDelayed", .taskPoolExecuteDelayed),
    ("executePeriodically", .taskPoolExecutePeriodically)]

def taskMethods : List (String × ApiName) := [("constructor", .taskConstructor)]

/-- The methods that both sides of a worker have. -/
def messageMethods : List (String × ApiName) :=
  [("postMessage", .workerPostMessage), ("addEventListener", .workerAddEventListener),
    ("on", .workerOn), ("onmessage", .workerOnMessage)]

/-- The modelled methods of a class. -/
def methodsOf (owner : String) : List (String × ApiName) :=
  if owner = Platform.functionClass then functionMethods
  else if owner = Platform.arrayClass then arrayMethods
  else if owner = Platform.setClass then setMethods
  else if owner = Platform.mapClass then mapMethods
  else if Platform.storageClasses.contains owner then storageMethods
  else if owner = Platform.taskPoolClass then taskPoolMethods
  else if owner = Platform.taskClass then taskMethods
  else if owner = Platform.workerClass then
    ("constructor", .workerConstructor) :: messageMethods
  else if owner = Platform.workerScopeClass then messageMethods
  else []

/-- The modelled method `owner.method`, if it is one. -/
def of? (owner method : String) : Option ApiName := (methodsOf owner).lookup method

def isContainerWrite : ApiName → Bool
  | .arrayPush | .arrayUnshift | .arrayFill | .arraySplice | .setAdd | .mapSet => true
  | _ => false

/-- Reads that hand out an element, apart from the look-up by key. -/
def isContainerRead : ApiName → Bool
  | .arrayPop | .arrayShift | .arrayAt | .arrayFind | .arrayFindLast | .arrayValues
  | .setValues | .mapValues => true
  | _ => false

/-- Reads that return a new container with the elements of the receiver. -/
def isContainerCopy : ApiName → Bool
  | .arraySlice | .arrayConcat => true
  | _ => false

def isForEach : ApiName → Bool
  | .arrayForEach | .setForEach | .mapForEach => true
  | _ => false

def isStorageWrite : ApiName → Bool
  | .storageSet | .storageSetOrCreate | .storageSetAndLink | .storageSetAndProp => true
  | _ => false

def isStorageRead : ApiName → Bool
  | .storageGet | .storageLink | .storageProp | .storageSetAndLink | .storageSetAndProp => true
  | _ => false

/-- Whether a read also connects the variable back to the store. -/
def isStorageLink : ApiName → Bool
  | .storageLink | .storageSetAndLink => true
  | _ => false

def isTask : ApiName → Bool
  | .taskPoolExecute | .taskPoolExecuteDelayed | .taskPoolExecutePeriodically
  | .taskConstructor => true
  | _ => false

def isWorker : ApiName → Bool
  | .workerConstructor | .workerPostMessage | .workerAddEventListener | .workerOn
  | .workerOnMessage => true
  | _ => false

end ApiName

end PointsTo
