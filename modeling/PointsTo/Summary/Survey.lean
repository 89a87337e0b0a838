import PointsTo.Call.Hierarchy
import PointsTo.Scene.Place
import PointsTo.Scene.Scope
import PointsTo.Scene.Text
import PointsTo.Summary.Basic

/-! Reads the body of a method and writes its summary. -/
namespace PointsTo

/-- A summary in the making. -/
structure Survey where
  summary : Summary
  captures : List Capture := []
  /-- The first reference of the body to each static field and global property, which stands for
  all others. -/
  firsts : List (Place × ValueId) := []
  calls : CallGraph
  log : Array Notice := #[]

abbrev Surveying := EStateM Fault Survey

namespace Surveying

/-- Asks the scene. -/
def scan {α : Type} (q : Scan α) : Surveying α := fun s =>
  match q s.log with
  | .ok a log => .ok a { s with log }
  | .error f log => .error f { s with log }

instance : MonadLift (Except Fault) Surveying := ⟨fun x => scan (Scan.ask x)⟩

def modifySummary (f : Summary → Summary) : Surveying Unit :=
  modify fun s => { s with summary := f s.summary }

def addEdge (source target : ValueId) (kind : EdgeKind) (stmt : StmtId) : Surveying Unit :=
  modifySummary fun s => { s with edges := s.edges.push ⟨source, target, kind, stmt⟩ }

/-- The reference that stands for a shared place. -/
def first (p : Place) (v : ValueId) : Surveying ValueId := modifyGet fun s =>
  let v' := (s.firsts.lookup p).getD v
  (v', { s with
    firsts := if (s.firsts.lookup p).isSome then s.firsts else (p, v) :: s.firsts
    summary := { s.summary with statics := s.summary.statics.insert v' } })

/-- Records the variable of another scope that a local stands for, if it does. -/
def capture (scene : Scene) (m : MethodId) (v : ValueId) (writes : Bool) : Surveying Unit := do
  let value ← scene.value v
  if !value.isLocal then return
  if ← scene.isDeclaredIn m v then return
  if value.isGlobalObject then return
  match ← scan (scene.resolveLocal m v) with
  | some (owner, source) =>
    modify fun s => { s with captures := Capture.add ⟨owner, source, v, writes⟩ s.captures }
  | none =>
    let name ← scene.text v
    let user := (← scene.method m).signature
    scan (Scan.note (.unresolvedLocal name user))

/-- Takes note of an operand; gives the value that stands for it in the summary. -/
def operand (scene : Scene) (m : MethodId) (v : ValueId) (writes : Bool) :
    Surveying ValueId := do
  match ← scene.value v with
  | .var .. =>
    capture scene m v writes
    return v
  | .field base _ =>
    capture scene m base false
    match ← scene.place? v with
    | some p => if p.isShared then first p v else return v
    | none => return v
  | .element base _ =>
    capture scene m base false
    return v
  | .staticField target => first (.staticField target) v
  | _ => return v

/-- A call that waits for points-to information. -/
def addDynamicCall (scene : Scene) (m : MethodId) (stmt : StmtId) (signature : Signature)
    (receiver : ValueId) (args : List ValueId) (prototype : Option MethodId) :
    Surveying Unit := do
  let target := (← scene.stmt stmt).target?
  let site ← modifyGet fun s =>
    let (site, sites) := s.calls.sites.addDynamic (some stmt) signature
      (some (args.map CallArg.value)) target (some (.value receiver)) m prototype
    (site, { s with calls := { s.calls with sites } })
  if signature.hasUnknownOwner && signature.name != Name.pointerCall then
    modifySummary fun s => { s with unknownCalls := s.unknownCalls.push site }
  else
    modifySummary fun s => { s with dynamicCalls := s.dynamicCalls.push site }

/-- Files a call under one of the three ways in which calls are resolved. -/
def call (scene : Scene) (m : MethodId) (stmt : StmtId) (expr : ValueId) : Surveying Unit := do
  let value ← scene.value expr
  value.operands.forM fun v => discard (operand scene m v false)
  let calls := (← get).calls
  let (sites, calls) ← scan (calls.resolveStmt scene stmt m)
  modify fun s => { s with calls }
  if !sites.isEmpty then
    modifySummary fun s => { s with staticCalls := s.staticCalls ++ sites.toArray }
    return
  match value with
  | .instanceCall base target args =>
    addDynamicCall scene m stmt target base args (scene.methodOf? target)
  | .pointerCall pointer args =>
    addDynamicCall scene m stmt ⟨Name.unknownClass, Name.pointerCall⟩ pointer args none
  | .staticCall target _ =>
    let caller := (← scene.method m).signature
    scan (Scan.note (.unresolvedStaticCall target caller))
  | _ => return

/-- The edge for an assignment between two pointers. There is none between two heap references. -/
def edgeKind? (intoHeap fromHeap : Bool) : Option EdgeKind :=
  match intoHeap, fromHeap with
  | false, false => some .copy
  | false, true => some .load
  | true, false => some .write
  | true, true => none

/-- The edge or allocation of an assignment. Allocations into anything but a pointer and
assignments between two heap references are left out. -/
def assign (scene : Scene) (explains : Bool) (m : MethodId) (stmt : StmtId)
    (target source : ValueId) : Surveying Unit := do
  let value ← scene.value source
  match value with
  | .parameter .. | .self _ => return
  | _ =>
    if value.isCall then
      let _ ← operand scene m target true
      call scene m stmt source
    else
      let target ← operand scene m target true
      if value.isAllocation then
        if !(← scene.value target).isPointer then scene.leaveOut explains [target]
        else if ← scene.isHeapRef target then
          modifySummary fun s =>
            { s with fieldAllocations := s.fieldAllocations.push ⟨source, target, stmt⟩ }
        else addEdge source target .address stmt
      else if value.isPointer then
        let source ← operand scene m source false
        let intoHeap ← scene.isHeapRef target
        let fromHeap ← scene.isHeapRef source
        match edgeKind? intoHeap fromHeap with
        | some kind => addEdge source target kind stmt
        | none => scene.leaveOut explains [target, source]

def statement (scene : Scene) (explains : Bool) (m : MethodId) (i : StmtId) :
    Surveying Unit := do
  match (← scene.stmt i).kind with
  | .assign target source => assign scene explains m i target source
  | .call expr => call scene m i expr
  | .ret v =>
    let v ← operand scene m v false
    modifySummary fun s => { s with returned := s.returned.push v }
  | .retVoid | .nop => return

/-- Goes through all statements of a method. -/
def body (scene : Scene) (explains : Bool) (m : MethodId) : Surveying Unit := do
  (← scene.method m).stmts.forM (statement scene explains m)

end Surveying

namespace Survey

/-- Surveys a method; its call sites are added to those that are known. -/
def ofMethod (scene : Scene) (explains : Bool) (m : MethodId) (calls : CallGraph)
    (log : Array Notice) : EStateM.Result Fault Survey Unit :=
  Surveying.body scene explains m { summary := { method := m }, calls, log }

end Survey

end PointsTo
