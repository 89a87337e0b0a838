/-! The ways in which one node of the flow graph feeds another. -/
namespace PointsTo

inductive EdgeKind where
  /-- From an object to a variable that points to it. -/
  | address
  | copy
  /-- From a field reference to the variable that is assigned from it. -/
  | load
  /-- From a variable to the field reference that it is stored in. -/
  | write
  /-- From a receiver to the receiver variable of a method. -/
  | self
  /-- Between a variable and its uses in other scopes. -/
  | capture
deriving DecidableEq

namespace EdgeKind

def all : List EdgeKind := [.address, .copy, .load, .write, .self, .capture]

def rank : EdgeKind → Nat
  | .address => 0
  | .copy => 1
  | .load => 2
  | .write => 3
  | .self => 4
  | .capture => 5

instance : Ord EdgeKind := ⟨compareOn rank⟩

instance : Std.TransOrd EdgeKind := inferInstanceAs (Std.TransCmp (compareOn rank))

instance : Std.LawfulEqOrd EdgeKind where
  eq_of_compare {a b} h := by
    cases a <;> cases b <;> first | rfl | exact absurd h (by decide)

/-- Edges along which points-to sets flow unchanged. -/
def isCopyLike : EdgeKind → Bool
  | .copy | .self | .capture => true
  | .address | .load | .write => false

end EdgeKind

end PointsTo
