import PointsTo.Order
import PointsTo.Ref
import PointsTo.Scene.Type
import Std.Data.TreeMap

/-! The places where calls happen. -/
namespace PointsTo

/-- An argument: a value of the caller, or a node of the flow graph for a call that no statement
of the program makes. -/
inductive CallArg where
  | value (v : ValueId)
  | node (n : NodeId)
deriving DecidableEq

/-- A call with a known callee. -/
structure StaticSite where
  id : SiteId
  stmt : Option StmtId
  signature : Signature
  args : Option (List CallArg)
  target : Option ValueId
  /-- The base of an instance call. -/
  receiver : Option ValueId
  caller : MethodId
  callee : MethodId
  /-- The dynamic site that this one resolves. -/
  origin : Option SiteId

/-- A call whose callees depend on the objects that its receiver points to. -/
structure DynamicSite where
  id : SiteId
  stmt : Option StmtId
  signature : Signature
  args : Option (List CallArg)
  target : Option ValueId
  /-- The base of an instance call or the function value of a pointer call. -/
  receiver : Option CallArg
  caller : MethodId
  /-- The method that the declared signature names. -/
  prototype : Option MethodId

/-- A dynamic site with one of its callees filled in. -/
def DynamicSite.resolved (site : DynamicSite) (id : SiteId) (callee : MethodId) : StaticSite where
  id := id
  stmt := site.stmt
  signature := site.signature
  args := site.args
  target := site.target
  receiver :=
    match site.receiver with
    | some (.value v) => some v
    | _ => none
  caller := site.caller
  callee := callee
  origin := some site.id

inductive CallSite where
  | static (site : StaticSite)
  | dynamic (site : DynamicSite)

namespace CallSite

def id : CallSite → SiteId
  | .static site => site.id
  | .dynamic site => site.id

def stmt : CallSite → Option StmtId
  | .static site => site.stmt
  | .dynamic site => site.stmt

def caller : CallSite → MethodId
  | .static site => site.caller
  | .dynamic site => site.caller

end CallSite

/-- All call sites by position. -/
structure SiteTable where
  sites : Array CallSite := #[]
  /-- The static site for each dynamic site and callee that it was resolved to. -/
  resolutions : Std.TreeMap (SiteId × MethodId) SiteId := ∅

namespace SiteTable

def get? (t : SiteTable) (i : SiteId) : Option CallSite := t.sites[i.index]?

def static? (t : SiteTable) (i : SiteId) : Option StaticSite :=
  match t.get? i with
  | some (.static site) => some site
  | _ => none

def dynamic? (t : SiteTable) (i : SiteId) : Option DynamicSite :=
  match t.get? i with
  | some (.dynamic site) => some site
  | _ => none

def nextId (t : SiteTable) : SiteId := ⟨t.sites.size⟩

def addStatic (t : SiteTable) (stmt : Option StmtId) (signature : Signature)
    (args : Option (List CallArg)) (target receiver : Option ValueId)
    (caller callee : MethodId) : SiteId × SiteTable :=
  let id := t.nextId
  (id, { t with
    sites := t.sites.push (.static
      { id, stmt, signature, args, target, receiver, caller, callee, origin := none }) })

def addDynamic (t : SiteTable) (stmt : Option StmtId) (signature : Signature)
    (args : Option (List CallArg)) (target : Option ValueId) (receiver : Option CallArg)
    (caller : MethodId) (prototype : Option MethodId) : SiteId × SiteTable :=
  let id := t.nextId
  (id, { t with
    sites := t.sites.push (.dynamic
      { id, stmt, signature, args, target, receiver, caller, prototype }) })

/-- The static site for a dynamic site and a callee, made at the first request. There is none for
anything but a dynamic site. -/
def resolve (t : SiteTable) (i : SiteId) (callee : MethodId) : Option SiteId × SiteTable :=
  match t.resolutions[(i, callee)]? with
  | some id => (some id, t)
  | none =>
    match t.dynamic? i with
    | none => (none, t)
    | some site =>
      let id := t.nextId
      (some id, {
        sites := t.sites.push (.static (site.resolved id callee))
        resolutions := t.resolutions.insert (i, callee) id })

/-- The static sites made for a dynamic site, in ascending order. -/
def resolvedFrom (t : SiteTable) (i : SiteId) : List SiteId :=
  ((t.resolutions.toList.filter (·.1.1 == i)).map (·.2)).mergeSort fun a b => a.index ≤ b.index

end SiteTable

end PointsTo
