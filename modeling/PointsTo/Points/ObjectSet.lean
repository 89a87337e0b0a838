import PointsTo.Points.BitSet
import PointsTo.Ref
import Std.Data.TreeSet

/-! Sets of objects in two representations. -/
namespace PointsTo

/-- An order in which the elements of a set may be listed. -/
structure Enumeration where
  arrange : List NodeId → List NodeId
  perm : ∀ l, (arrange l).Perm l

/-- The order of the positions. -/
def Enumeration.ascending : Enumeration := ⟨id, fun _ => .rfl⟩

instance : Inhabited Enumeration := ⟨⟨List.reverse, List.reverse_perm⟩⟩

/-- The representation that a run uses for its sets. -/
inductive Collection where
  /-- Bits, listed in ascending order. -/
  | dense
  /-- A tree; users of the set may not rely on the order in which it is listed. -/
  | sparse (order : Enumeration)

inductive ObjectSet where
  | dense (bits : BitSet)
  | sparse (elements : Std.TreeSet NodeId)

namespace ObjectSet

def isDense : ObjectSet → Bool
  | .dense _ => true
  | .sparse _ => false

/-- The elements in ascending order. -/
def toList : ObjectSet → List NodeId
  | .dense bits => bits.toList.map Ref.mk
  | .sparse elements => elements.toList

def contains (s : ObjectSet) (n : NodeId) : Bool :=
  match s with
  | .dense bits => bits.contains n.index
  | .sparse elements => elements.contains n

def isEmpty : ObjectSet → Bool
  | .dense bits => bits.isEmpty
  | .sparse elements => elements.isEmpty

def size : ObjectSet → Nat
  | .dense bits => bits.size
  | .sparse elements => elements.size

/-- The empty set in the same representation. -/
def emptied : ObjectSet → ObjectSet
  | .dense _ => .dense ∅
  | .sparse _ => .sparse ∅

/-- Adds an element; the flag tells whether it is new. -/
def insert (s : ObjectSet) (n : NodeId) : Bool × ObjectSet :=
  match s with
  | .dense bits => (bits.insert n.index).map id dense
  | .sparse elements => (!elements.contains n, .sparse (elements.insert n))

/-- Takes an element out; the flag tells whether it was there. -/
def remove (s : ObjectSet) (n : NodeId) : Bool × ObjectSet :=
  match s with
  | .dense bits => (bits.remove n.index).map id dense
  | .sparse elements => (elements.contains n, .sparse (elements.erase n))

/-- An operation with one element after the other; the flag is raised if one of them raises it. -/
def each (f : ObjectSet → NodeId → Bool × ObjectSet) (s : ObjectSet) (elements : List NodeId) :
    Bool × ObjectSet :=
  elements.foldl (fun r n => (f r.2 n).map (r.1 || ·) id) (false, s)

/-- Adds the elements of another set, whatever its representation; the flag tells whether one of them
is new. -/
def union (s t : ObjectSet) : Bool × ObjectSet :=
  match s, t with
  | .dense a, .dense b => (a.union b).map id dense
  | .sparse a, .sparse b =>
    let all := b.toList.foldl (·.insert ·) a
    (all.size != a.size, .sparse all)
  | s, t => each insert s t.toList

/-- Takes the elements of another set out; the flag tells whether one of them was there. -/
def subtract (s t : ObjectSet) : Bool × ObjectSet :=
  match s, t with
  | .dense a, .dense b => (a.subtract b).map id dense
  | .sparse a, .sparse b =>
    let kept := a.filter (!b.contains ·)
    (kept.size != a.size, .sparse kept)
  | s, t => each remove s t.toList

def includes (s t : ObjectSet) : Bool :=
  match s, t with
  | .dense a, .dense b => a.includes b
  | s, t => t.toList.all s.contains

end ObjectSet

namespace Collection

def empty : Collection → ObjectSet
  | .dense => .dense ∅
  | .sparse _ => .sparse ∅

/-- The elements of a set in the order in which this run lists them. -/
def enumerate (c : Collection) (s : ObjectSet) : List NodeId :=
  match c, s with
  | .sparse order, .sparse elements => order.arrange elements.toList
  | _, s => s.toList

end Collection

end PointsTo
