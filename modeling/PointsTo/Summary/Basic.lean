import PointsTo.Flow.EdgeKind
import PointsTo.Ref
import PointsTo.Search
import Std.Data.TreeSet

/-! What the body of a method does, whatever its context. -/
namespace PointsTo

/-- An assignment between two values of the body. -/
structure LocalEdge where
  source : ValueId
  target : ValueId
  kind : EdgeKind
  stmt : StmtId
deriving DecidableEq

/-- An allocation that is stored straight into a field. -/
structure FieldAllocation where
  object : ValueId
  field : ValueId
  stmt : StmtId
deriving DecidableEq

structure Summary where
  method : MethodId
  edges : Array LocalEdge := #[]
  fieldAllocations : Array FieldAllocation := #[]
  /-- The static fields and global properties that the body touches. -/
  statics : Std.TreeSet ValueId := ∅
  returned : Array ValueId := #[]
  /-- The calls that were resolved by the class hierarchy. -/
  staticCalls : Array SiteId := #[]
  /-- The calls that wait for the objects of their receiver. -/
  dynamicCalls : Array SiteId := #[]
  /-- The calls on a receiver of unknown type. -/
  unknownCalls : Array SiteId := #[]

namespace Summary

/-- The values that a value is assigned to. -/
def successors (s : Summary) (v : ValueId) : List ValueId :=
  s.edges.toList.filterMap fun e =>
    if e.source = v ∧ e.kind ≠ .address then some e.target else none

/-- Whether assignments lead from a value to a returned one. Each edge is followed once, so the
fuel never runs out. -/
def isReturnedFrom (s : Summary) (v : ValueId) : Bool :=
  (Search.reach s.successors (s.edges.size + 2) [v]).any s.returned.toList.contains

/-- The static fields and global properties that an allocation is stored in at once. -/
def sharedTargets (s : Summary) (e : LocalEdge) : List ValueId :=
  (e.target :: s.successors e.target).filter s.statics.contains

/-- Whether the body returns an object that it also keeps in a static field or global property. -/
def sharesResult (s : Summary) : Bool :=
  s.edges.toList.any fun e =>
    e.kind = .address && (s.sharedTargets e).any s.isReturnedFrom

end Summary

/-- A local of a method that stands for a variable of another scope. -/
structure Capture where
  /-- The method that declares the variable. -/
  owner : MethodId
  source : ValueId
  /-- The local that refers to it. -/
  target : ValueId
  /-- Whether the method writes the variable. -/
  writes : Bool
deriving DecidableEq

namespace Capture

/-- Adds a capture; a second one of the same variable only adds its write. -/
def add (c : Capture) : List Capture → List Capture
  | [] => [c]
  | d :: rest =>
    if d.source = c.source ∧ d.target = c.target then
      { d with writes := d.writes || c.writes } :: rest
    else d :: add c rest

/-- The methods whose variables are captured, in ascending order. -/
def owners (cs : List Capture) : List MethodId :=
  (cs.foldl (fun ms c => ms.insert c.owner) (∅ : Std.TreeSet MethodId)).toList

end Capture

end PointsTo
