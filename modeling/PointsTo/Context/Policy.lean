import PointsTo.Context.Basic
import PointsTo.Outcome

/-! How the context of a callee is chosen. -/
namespace PointsTo

/-- What contexts are made of. -/
inductive Policy where
  | callSite | object | function
deriving DecidableEq

namespace Policy

/-- The item that a call adds. A call without a receiver object adds none under object
sensitivity. -/
def item? (policy : Policy) (site : SiteId) (object : Option NodeId) (callee : MethodId) :
    Option ContextItem :=
  match policy with
  | .callSite => some (.callSite site callee)
  | .object => object.map .object
  | .function => some (.function callee)

/-- The item under which an entry is analysed: under function sensitivity the entry itself. -/
def entryItem? (policy : Policy) (entry : MethodId) : Option ContextItem :=
  match policy with
  | .function => some (.function entry)
  | _ => none

end Policy

namespace ContextTable

/-- The chosen context, the table that has it, and a notice if the caller context is unknown. -/
structure Choice where
  context : ContextId
  table : ContextTable
  notice : Option Notice := none

/-- Extends the caller's context. An unknown one gives the empty context. -/
def extend (t : ContextTable) (depth : Nat) (caller : ContextId) (item : ContextItem) : Choice :=
  match t.extend? depth caller item with
  | some (context, table) => { context, table }
  | none => { context := .empty, table := t, notice := some (.unknownContext caller) }

/-- The context of a call; without a new item it is the caller's. -/
def select (t : ContextTable) (policy : Policy) (depth : Nat) (caller : ContextId) (site : SiteId)
    (object : Option NodeId) (callee : MethodId) : Choice :=
  match policy.item? site object callee with
  | some item => t.extend depth caller item
  | none => { context := caller, table := t }

/-- The context of an entry. -/
def enter (t : ContextTable) (policy : Policy) (depth : Nat) (entry : MethodId) : Choice :=
  match policy.entryItem? entry with
  | some item => t.extend depth .empty item
  | none => { context := .empty, table := t }

end ContextTable

end PointsTo
