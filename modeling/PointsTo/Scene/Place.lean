import PointsTo.Scene.Content

/-! What a reference denotes, so that several references to one place can be told to agree. -/
namespace PointsTo

/-- A part of a heap object. -/
inductive FieldKey where
  | named (name : String)
  /-- The one slot that stands for all elements of an array or container. -/
  | element
deriving DecidableEq

/-- The place that a reference names. -/
inductive Place where
  /-- A part of whatever the value `base` points to. -/
  | part (base : ValueId) (key : FieldKey)
  | staticField (target : Signature)
  /-- A property of the global object. -/
  | global (name : String)
deriving DecidableEq

namespace Place

/-- Static fields and global properties are the same in every context. -/
def isShared : Place → Bool
  | .part .. => false
  | .staticField _ | .global _ => true

end Place

namespace Scene

/-- The place behind a reference; `none` for any other value. -/
def place? (s : Scene) (v : ValueId) : Except Fault (Option Place) := do
  match ← s.globalProperty? v with
  | some name => return some (.global name)
  | none =>
    match ← s.value v with
    | .field base target => return some (.part base (.named target.name))
    | .element base _ => return some (.part base .element)
    | .staticField target => return some (.staticField target)
    | _ => return none

end Scene

end PointsTo
