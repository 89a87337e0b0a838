import PointsTo.Points.ObjectSet
import Std.Data.TreeMap

/-! Points-to sets in two parts, of which one still has to be passed on. -/
namespace PointsTo

structure DiffTable where
  collection : Collection
  /-- What was not passed on yet. -/
  pending : Std.TreeMap NodeId ObjectSet := ∅
  /-- What was passed on along all edges. -/
  settled : Std.TreeMap NodeId ObjectSet := ∅

namespace DiffTable

def empty (collection : Collection) : DiffTable := { collection }

def pendingOf (t : DiffTable) (n : NodeId) : ObjectSet :=
  (t.pending[n]?).getD t.collection.empty

def settledOf (t : DiffTable) (n : NodeId) : ObjectSet :=
  (t.settled[n]?).getD t.collection.empty

/-- The whole set of a node. -/
def get (t : DiffTable) (n : NodeId) : ObjectSet :=
  ((t.collection.empty.union (t.settledOf n)).2.union (t.pendingOf n)).2

def hasPending (t : DiffTable) (n : NodeId) : Bool := !(t.pendingOf n).isEmpty

/-- Changes the pending set of a node and passes the flag of the change on. -/
def change (t : DiffTable) (n : NodeId) (f : ObjectSet → Bool × ObjectSet) : Bool × DiffTable :=
  (f (t.pendingOf n)).map id fun s => { t with pending := t.pending.insert n s }

/-- Adds one object; the flag tells whether it is new. -/
def add (t : DiffTable) (n object : NodeId) : Bool × DiffTable :=
  if (t.settledOf n).contains object then (false, t)
  else t.change n (·.insert object)

/-- Adds the objects of a set; the flag tells whether one of them is new. -/
def join (t : DiffTable) (n : NodeId) (s : ObjectSet) : Bool × DiffTable :=
  let fresh := (s.subtract (t.settledOf n)).2
  if fresh.isEmpty then (false, t)
  else t.change n (·.union fresh)

/-- Adds what another node points to. -/
def joinFrom (t : DiffTable) (target source : NodeId) : Bool × DiffTable :=
  if target = source then (false, t) else t.join target (t.get source)

/-- Adds what another node has not passed on yet. -/
def joinPending (t : DiffTable) (target source : NodeId) : Bool × DiffTable :=
  if target = source then (false, t)
  else
    match t.pending[source]? with
    | some s => t.join target s
    | none => (false, t)

/-- Marks the set of a node as passed on. -/
def flush (t : DiffTable) (n : NodeId) : DiffTable :=
  match t.pending[n]? with
  | none => t
  | some s =>
    { t with
      settled := t.settled.insert n ((t.settledOf n).union s).2
      pending := t.pending.insert n s.emptied }

/-- The nodes that point to something, in ascending order. -/
def keys (t : DiffTable) : List NodeId :=
  let nonempty (m : Std.TreeMap NodeId ObjectSet) : List NodeId :=
    (m.toList.filter fun entry => !entry.2.isEmpty).map (·.1)
  ((nonempty t.settled ++ nonempty t.pending).foldl (·.insert ·) (∅ : Std.TreeSet NodeId)).toList

/-- An upper bound on the number of objects in all sets. -/
def weight (t : DiffTable) : Nat :=
  let count (m : Std.TreeMap NodeId ObjectSet) : Nat :=
    m.toList.foldr (fun entry n => entry.2.toList.length + n) 0
  count t.settled + count t.pending

end DiffTable

end PointsTo
