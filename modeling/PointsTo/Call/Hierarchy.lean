import PointsTo.Call.Graph
import PointsTo.Platform.ApiName
import PointsTo.Scene.Content
import PointsTo.Scene.Hierarchy
import Std.Data.TreeSet

/-! Calls that the class hierarchy alone resolves. -/
namespace PointsTo

namespace Scene

/-- The methods of that name that the given classes declare. -/
def overrides (s : Scene) (name : String) : List ClassId → Except Fault (List MethodId)
  | [] => .ok []
  | c :: rest => do
    let decl ← s.classDecl c
    let others ← s.overrides name rest
    match decl.methods.get? name with
    | some m => return m :: others
    | none => return others

/-- The one method that an instance call can run, if there is only one. A constructor is found by
its class alone; calls on objects of unknown class and on receivers that decide by themselves are
left to the analysis. -/
def hierarchyTargets (s : Scene) (signature : Signature) : Scan (List MethodId) := do
  if signature.hasUnknownOwner || Platform.isReceiverDependent signature.owner then return []
  match s.classNamed? signature.owner with
  | none => return []
  | some c =>
    let own ← s.dispatch c signature.name
    if signature.name = Name.constructor then return own.toList
    let below ← s.overrides signature.name (s.subclasses c)
    let targets : Std.TreeSet MethodId := (own.toList ++ below).foldl (·.insert ·) ∅
    let concrete ← targets.toList.filterM fun m => do return !(← s.method m).isAbstract
    match concrete with
    | [m] => return [m]
    | _ => return []

end Scene

namespace CallGraph

/-- Makes one static site for each callee of a call. -/
def addSites (g : CallGraph) (stmt : StmtId) (signature : Signature) (args : List CallArg)
    (target receiver : Option ValueId) (caller : MethodId) :
    List MethodId → List SiteId × CallGraph
  | [] => ([], g)
  | callee :: rest =>
    let (i, sites) :=
      g.sites.addStatic (some stmt) signature (some args) target receiver caller callee
    let (others, g) := { g with sites }.addSites stmt signature args target receiver caller rest
    (i :: others, g)

/-- The static sites of a call statement, which are worked out once. -/
def resolveStmt (g : CallGraph) (s : Scene) (stmt : StmtId) (caller : MethodId) :
    Scan (List SiteId × CallGraph) := do
  match g.stmtSites[stmt]? with
  | some sites => return (sites, g)
  | none =>
    match ← s.callExpr? stmt with
    | none => return ([], g)
    | some expr =>
      let target := (← s.stmt stmt).target?
      let value ← s.value expr
      let args := (value.callArgs?.getD []).map CallArg.value
      match value with
      | .staticCall signature _ =>
        let callees := (s.methodOf? signature).toList
        let (sites, g) := g.addSites stmt signature args target none caller callees
        return (sites, { g with stmtSites := g.stmtSites.insert stmt sites })
      | .instanceCall base signature _ =>
        let callees ← s.hierarchyTargets signature
        let (sites, g) := g.addSites stmt signature args target (some base) caller callees
        return (sites, { g with stmtSites := g.stmtSites.insert stmt sites })
      | _ => return ([], g)

end CallGraph

end PointsTo
