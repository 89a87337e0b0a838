import PointsTo.Call.Site
import PointsTo.Scene.Decl
import PointsTo.Search

/-! Who calls whom. -/
namespace PointsTo

/-- What kind of code a method is. -/
inductive MethodKind where
  | real | virtual | constructor | intrinsic
  /-- Not classified yet. -/
  | blank
deriving DecidableEq, Repr

def MethodDecl.kind (m : MethodDecl) : MethodKind :=
  if m.isAbstract then .virtual
  else if m.isConstructor then .constructor
  else if !m.hasBody then .intrinsic
  else .real

/-- How a call edge was found. -/
inductive CallType where
  /-- Before the analysis. -/
  | static
  /-- From points-to information. -/
  | dynamic
  /-- By the model of a platform method. -/
  | special
deriving DecidableEq

structure CallNode where
  method : MethodId
  kind : MethodKind
deriving DecidableEq

/-- An edge between two nodes, which are given by their positions. -/
structure CallEdge where
  caller : Nat
  callee : Nat
  site : SiteId
  type : CallType
deriving DecidableEq

structure CallGraph where
  nodes : Array CallNode := #[]
  edges : Array CallEdge := #[]
  /-- The node of each method. -/
  nodeOf : Std.TreeMap MethodId Nat := ∅
  /-- The edges of each call site. -/
  siteEdges : Std.TreeMap SiteId (List Nat) := ∅
  /-- The reachable methods, in the order in which they became so. -/
  reached : Array MethodId := #[]
  /-- The call sites that a statement was resolved to before the analysis. -/
  stmtSites : Std.TreeMap StmtId (List SiteId) := ∅
  sites : SiteTable := {}

namespace CallGraph

/-- The node of a method, added as a blank one if there is none. -/
def touch (g : CallGraph) (m : MethodId) : Nat × CallGraph :=
  match g.nodeOf[m]? with
  | some i => (i, g)
  | none =>
    let i := g.nodes.size
    (i, { g with
      nodes := g.nodes.push ⟨m, .blank⟩
      nodeOf := g.nodeOf.insert m i
      reached := g.reached.push m })

/-- Adds a method, or classifies it if it was blank. -/
def addNode (g : CallGraph) (m : MethodId) (kind : MethodKind) : Nat × CallGraph :=
  let (i, g) := g.touch m
  (i, { g with
    nodes := g.nodes.modify i fun n => if n.kind = .blank then { n with kind } else n })

def kindOf? (g : CallGraph) (m : MethodId) : Option MethodKind :=
  (g.nodeOf[m]?.bind (g.nodes[·]?)).map (·.kind)

/-- The callees of a call site. -/
def callees (g : CallGraph) (site : SiteId) : List MethodId :=
  ((g.siteEdges[site]?).getD []).filterMap fun e =>
    (g.edges[e]?.bind (g.nodes[·.callee]?)).map (·.method)

/-- The callees of a method over all of its call sites. -/
def calleesOf (g : CallGraph) (m : MethodId) : List MethodId :=
  match g.nodeOf[m]? with
  | none => []
  | some i =>
    g.edges.toList.filterMap fun e =>
      if e.caller = i then (g.nodes[e.callee]?).map (·.method) else none

def hasEdge (g : CallGraph) (site : SiteId) (callee : MethodId) : Bool :=
  (g.callees site).contains callee

/-- Adds a call; the flag tells whether it is new. Both methods become nodes in any case. -/
def addEdge (g : CallGraph) (site : SiteId) (caller callee : MethodId) (type : CallType) :
    Bool × CallGraph :=
  let (i, g) := g.touch caller
  let (j, g) := g.touch callee
  if g.hasEdge site callee then (false, g)
  else
    let e := g.edges.size
    (true, { g with
      edges := g.edges.push ⟨i, j, site, type⟩
      siteEdges := g.siteEdges.insert site ((g.siteEdges[site]?).getD [] ++ [e]) })

/-- The nodes that a node calls. -/
def next (g : CallGraph) (i : Nat) : List Nat :=
  (g.edges.toList.filter (·.caller == i)).map (·.callee)

/-- Whether calls lead from one method to another in any number of steps. Each edge is followed
once, so the fuel never runs out. -/
def reaches (g : CallGraph) (source target : MethodId) : Bool :=
  if source = target then true
  else
    match g.nodeOf[source]?, g.nodeOf[target]? with
    | some i, some j => (Search.reach g.next (g.edges.size + 2) [i]).contains j
    | _, _ => false

def countOf (g : CallGraph) (type : CallType) : Nat :=
  (g.edges.toList.filter (·.type == type)).length

end CallGraph

end PointsTo
