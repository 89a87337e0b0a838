/-! Static types and the names of class members. -/
namespace PointsTo

/-! Reserved names. -/

namespace Name

/-- The class of a call whose receiver type is unknown. -/
def unknownClass : String := "%unk"

/-- The class and the method that hold the top-level code of a file. -/
def moduleCode : String := "%dflt"

def constructor : String := "constructor"

/-- The method name of a call through a function value. -/
def pointerCall : String := "%ptr"

def receiver : String := "this"

/-- The object whose properties are the global variables. -/
def globalObject : String := "globalThis"

end Name

/-- A method or field, named by its class and its own name. -/
structure Signature where
  owner : String
  name : String
deriving DecidableEq

namespace Signature

def text (s : Signature) : String := s.owner ++ "." ++ s.name

def hasUnknownOwner (s : Signature) : Bool := s.owner == Name.unknownClass

instance : Ord Signature := ⟨compareLex (compareOn owner) (compareOn name)⟩

instance : Std.TransOrd Signature :=
  inferInstanceAs (Std.TransCmp (compareLex (compareOn owner) (compareOn name)))

instance : Std.LawfulEqOrd Signature where
  eq_of_compare {a b} h := by
    have h' : (compare a.owner b.owner).then (compare a.name b.name) = .eq := h
    cases a; cases b
    simpa [Ordering.then_eq_eq] using h'

end Signature

inductive Ty where
  | unknown
  | any
  | void
  | primitive (name : String)
  | object (owner : String)
  | array (element : Ty)
  | function (target : Signature)
  | union (alternatives : List Ty)

namespace Ty

mutual

def text : Ty → String
  | .unknown => "unknown"
  | .any => "any"
  | .void => "void"
  | .primitive name => name
  | .object owner => owner
  | .array element => element.text ++ "[]"
  | .function target => "fn " ++ target.text
  | .union alternatives => " | ".intercalate (texts alternatives)

def texts : List Ty → List String
  | [] => []
  | t :: rest => t.text :: texts rest

end

def className? : Ty → Option String
  | .object owner => some owner
  | _ => none

def isObject : Ty → Bool
  | .object _ => true
  | _ => false

def isFunction : Ty → Bool
  | .function _ => true
  | _ => false

/-- False for the types whose values can never hold a reference. -/
def mayBePointer : Ty → Bool
  | .void | .primitive _ => false
  | _ => true

end Ty

end PointsTo
