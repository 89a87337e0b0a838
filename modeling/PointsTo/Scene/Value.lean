import PointsTo.Ref
import PointsTo.Scene.Type

/-! The values that statements read and write. -/
namespace PointsTo

inductive Constant where
  | str (text : String)
  | number (literal : String)
  | bool (b : Bool)
  | null
  | undefined
deriving DecidableEq

/-- Operands are positions in the value table of the scene. -/
inductive Value where
  | var (name : String) (type : Ty)
  /-- A formal parameter, on the right of the assignment that binds it. -/
  | parameter (index : Nat) (type : Ty)
  /-- The receiver, on the right of the assignment that binds it. -/
  | self (owner : String)
  | field (base : ValueId) (target : Signature)
  | staticField (target : Signature)
  | element (base index : ValueId)
  | new (owner : String)
  | newArray (element : Ty)
  | constant (c : Constant)
  | functionRef (target : MethodId)
  | instanceCall (base : ValueId) (target : Signature) (args : List ValueId)
  | staticCall (target : Signature) (args : List ValueId)
  | pointerCall (pointer : ValueId) (args : List ValueId)
  /-- Any other expression. -/
  | expr (operands : List ValueId)

namespace Value

def isLocal : Value → Bool
  | .var .. => true
  | _ => false

def isCall : Value → Bool
  | .instanceCall .. | .staticCall .. | .pointerCall .. => true
  | _ => false

/-- References to a field or an element of a heap object. -/
def isFieldLike : Value → Bool
  | .field .. | .element .. => true
  | _ => false

def isAllocation : Value → Bool
  | .new _ | .newArray _ | .functionRef _ => true
  | _ => false

/-- Values that denote a location that can hold a pointer. -/
def isPointer : Value → Bool
  | .var .. | .field .. | .staticField _ | .element .. => true
  | _ => false

def localName? : Value → Option String
  | .var name _ => some name
  | _ => none

def isGlobalObject (v : Value) : Bool := v.localName? == some Name.globalObject

def stringConstant? : Value → Option String
  | .constant (.str text) => some text
  | _ => none

def callArgs? : Value → Option (List ValueId)
  | .instanceCall _ _ args | .staticCall _ args | .pointerCall _ args => some args
  | _ => none

/-- What a call is dispatched on: the base object or the function value. -/
def callReceiver? : Value → Option ValueId
  | .instanceCall base _ _ => some base
  | .pointerCall pointer _ => some pointer
  | _ => none

/-- The values that a value refers to directly. -/
def operands : Value → List ValueId
  | .field base _ => [base]
  | .element base index => [base, index]
  | .instanceCall base _ args => base :: args
  | .staticCall _ args => args
  | .pointerCall pointer args => pointer :: args
  | .expr operands => operands
  | _ => []

end Value

end PointsTo
