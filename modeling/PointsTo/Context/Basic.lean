import PointsTo.Intern
import PointsTo.Order
import PointsTo.Ref

/-! Calling contexts: bounded histories of what led to a call. -/
namespace PointsTo

/-- What one call adds to a context. -/
inductive ContextItem where
  | callSite (site : SiteId) (callee : MethodId)
  | object (heap : NodeId)
  | function (m : MethodId)
deriving DecidableEq

namespace ContextItem

def rank : ContextItem → Nat × Nat × Nat
  | .callSite site callee => (0, site.index, callee.index)
  | .object heap => (1, heap.index, 0)
  | .function m => (2, m.index, 0)

theorem rank_injective {a b : ContextItem} (h : a.rank = b.rank) : a = b := by
  cases a <;> cases b <;> simp_all [rank]

instance : Ord ContextItem := ⟨compareOn rank⟩

instance : Std.TransOrd ContextItem := inferInstanceAs (Std.TransCmp (compareOn rank))

instance : Std.LawfulEqOrd ContextItem where
  compare_self := Std.ReflOrd.compare_self
  eq_of_compare h := rank_injective (Std.LawfulEqOrd.eq_of_compare h)

end ContextItem

/-- The items of a context, newest first. -/
abbrev Context := List ItemId

/-- One more item in front. What exceeds the depth at the other end is dropped. -/
def Context.extend (c : Context) (item : ItemId) (depth : Nat) : Context :=
  if depth = 0 then []
  else if c.length < depth then item :: c
  else item :: c.take (depth - 1)

/-- The empty context. Everything that contexts do not tell apart lives in it. -/
def ContextId.empty : ContextId := ⟨0⟩

/-- The contexts and items in use. -/
structure ContextTable where
  contextTable : Interner Context
  itemTable : Interner ContextItem

/-- The empty context comes first. -/
instance : EmptyCollection ContextTable := ⟨⟨(Interner.intern ∅ []).2, ∅⟩⟩

namespace ContextTable

def contexts (t : ContextTable) : Array Context := t.contextTable.entries

def items (t : ContextTable) : Array ContextItem := t.itemTable.entries

def context? (t : ContextTable) (c : ContextId) : Option Context := t.contexts[c.index]?

def item? (t : ContextTable) (i : ItemId) : Option ContextItem := t.items[i.index]?

def internContext (t : ContextTable) (c : Context) : ContextId × ContextTable :=
  let (i, contextTable) := t.contextTable.intern c
  (⟨i⟩, { t with contextTable })

def internItem (t : ContextTable) (item : ContextItem) : ItemId × ContextTable :=
  let (i, itemTable) := t.itemTable.intern item
  (⟨i⟩, { t with itemTable })

/-- The items of a context, newest first. -/
def itemsOf (t : ContextTable) (c : ContextId) : List ContextItem :=
  match t.context? c with
  | some items => items.filterMap t.item?
  | none => []

/-- The caller's context with one more item; `none` if there is no such caller context. -/
def extend? (t : ContextTable) (depth : Nat) (caller : ContextId) (item : ContextItem) :
    Option (ContextId × ContextTable) :=
  match t.context? caller with
  | none => none
  | some c =>
    let (i, t) := t.internItem item
    some (t.internContext (c.extend i depth))

end ContextTable

end PointsTo
