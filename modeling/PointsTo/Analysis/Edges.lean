import PointsTo.Analysis.State

/-! Nodes of arguments and targets, and edges that wake their sources up. -/
namespace PointsTo.Run

/-- Has a node pass on its whole set at the next solution. -/
def wake (n : NodeId) : Run Unit := modify fun s => { s with retrigger := s.retrigger.insert n }

/-- Wakes up the base of a field reference, so that the reference sees what the base points to. -/
def wakeBase (fieldRef : NodeId) : Run Unit := do
  if let some (base, _) := (← node fieldRef).fieldRef? then wake base

/-- Wakes up what an edge takes its objects from. -/
def wakeSource (source target : NodeId) : EdgeKind → Run Unit
  | .load => wakeBase source
  | .write => do
    wakeBase target
    wake source
  | _ => wake source

/-- Adds an edge; gives its source if the edge is new. -/
def flow (source target : NodeId) (kind : EdgeKind) (stmt : Option StmtId) :
    Run (Option NodeId) := do
  match ← grow (Growing.addEdge source target kind stmt) with
  | none => return none
  | some _ =>
    wakeSource source target kind
    return some source

/-- Has a node point to an object. -/
def address (object target : NodeId) (stmt : Option StmtId) : Run Unit := do
  let _ ← grow (Growing.addEdge object target .address stmt)

/-- Adds an object to a node at the next solution. -/
def update (p : Problem) (n object : NodeId) : Run Unit := modify fun s =>
  let old := (s.updates[n]?).getD p.settings.collection.empty
  { s with updates := s.updates.insert n (old.insert object).2 }

/-- The node of an argument, if it can carry pointers. -/
def argument (p : Problem) (a : CallArg) (c : ContextId) (stmt : Option StmtId) :
    Run (Option NodeId) := do
  match a with
  | .node n => return some n
  | .value v =>
    if (← p.scene.value v).isPointer then return some (← value p c v stmt) else return none

/-- The node of the argument of a call at a position. -/
def argumentAt (p : Problem) (site : StaticSite) (c : ContextId) (index : Nat) :
    Run (Option NodeId) := do
  match (site.args.getD [])[index]? with
  | some a => argument p a c site.stmt
  | none => return none

/-- The node that the result of a call goes to. -/
def targetNode (p : Problem) (site : StaticSite) (c : ContextId) : Run (Option NodeId) := do
  match site.target with
  | some v => return some (← value p c v site.stmt)
  | none => return none

/-- Changes what is attached to a pointer node. -/
def mapPointer (n : NodeId) (f : PointerInfo → PointerInfo) : Run Unit :=
  grow (Growing.update n (·.mapPointer f))

end PointsTo.Run
