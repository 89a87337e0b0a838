import PointsTo.Analysis.Dispatch

/-! Puts the summaries of methods into the flow graph under their contexts. -/
namespace PointsTo.Run

/-- Puts an assignment into the graph. -/
def instantiateEdge (p : Problem) (c : ContextId) (e : LocalEdge) : Run Unit := do
  let source ← value p c e.source (some e.stmt)
  let target ← value p c e.target (some e.stmt)
  if e.kind = .address then address source target (some e.stmt)
  else discard (flow source target e.kind (some e.stmt))

/-- Puts an allocation that is stored in a field into the graph, by way of a temporary. -/
def instantiateAllocation (p : Problem) (c : ContextId) (a : FieldAllocation) : Run Unit := do
  let object ← value p c a.object (some a.stmt)
  let field ← value p c a.field (some a.stmt)
  let temporary ← grow (Growing.temporary c a.stmt)
  address object temporary (some a.stmt)
  if (← grow (Growing.addEdge temporary field .write (some a.stmt))).isSome then wakeBase field

/-- Has a variable point to a made-up object. -/
def fabricate (p : Problem) (c : ContextId) (object : Synthetic) (owner : String) (v : ValueId) :
    Run Unit := do
  let object ← grow (Growing.synthetic c object (some owner))
  let target ← value p c v none
  address object target none

/-- Makes up objects for the parameters of class type and for the receiver. -/
def fabricateFormals (p : Problem) (m : MethodId) (c : ContextId) : Run Unit := do
  let decl ← p.scene.method m
  let formals := (← p.scene.parameterLocals m).toList
  formals.zipIdx.forM fun (formal, index) => do
    match formal, decl.params[index]? with
    | some v, some (.object owner) => fabricate p c (.parameter m index) owner v
    | _, _ => return
  if !decl.isStatic then
    if let some v ← p.scene.receiverLocal? m then
      fabricate p c (.receiver m) (← p.scene.classOfMethod m).name v

/-- Attaches a call with a known callee to its receiver, so that it is made once for each object.
False if the receiver cannot hold calls. -/
def attachInstance (p : Problem) (site : StaticSite) (c : ContextId) : Run Bool := do
  if p.settings.policy ≠ .object then return false
  if (← p.scene.method site.callee).isStatic then return false
  match site.receiver with
  | none => return false
  | some v =>
    let n ← value p c v site.stmt
    if (← node n).pointer?.isNone then return false
    mapPointer n fun i => { i with instanceCalls := i.instanceCalls ++ [(site.id, c)] }
    wake n
    return true

/-- Makes a statically resolved call. Under object sensitivity an instance call waits for the
objects of its receiver. -/
def instantiateCall (p : Problem) (c : ContextId) (i : SiteId) : Run Unit := do
  match (← get).calls.sites.static? i with
  | none => return
  | some site =>
    discard (onCalls (·.addEdge site.id site.caller site.callee .static))
    if !(← attachInstance p site c) then discard (call p site c none)

/-- The node that a dynamic call is attached to. -/
def dynamicReceiver (p : Problem) (i : SiteId) (c : ContextId) : Run (Option NodeId) := do
  match (← get).calls.sites.dynamic? i with
  | none => return none
  | some site =>
    match site.receiver with
    | some (.value v) => return some (← value p c v site.stmt)
    | some (.node n) => return some n
    | none =>
      note (.missingReceiver i)
      return none

/-- Attaches a dynamic call to its receiver. -/
def attach (p : Problem) (i : SiteId) (c : ContextId) (f : PointerInfo → PointerInfo) :
    Run Unit := do
  match ← dynamicReceiver p i c with
  | none => return
  | some n =>
    if (← node n).pointer?.isSome then
      mapPointer n f
      wake n
    else note (.passiveReceiver n i)

def attachDynamic (p : Problem) (i : SiteId) (c : ContextId) : Run Unit :=
  attach p i c fun info => { info with dynamicCalls := info.dynamicCalls ++ [(i, c)] }

def attachUnknown (p : Problem) (i : SiteId) (c : ContextId) : Run Unit :=
  attach p i c fun info => { info with unknownCalls := info.unknownCalls ++ [(i, c)] }

/-- Puts the summary of a method into the graph under a context. -/
def instantiate (p : Problem) (m : MethodId) (c : ContextId) : Run Unit := do
  match (← get).summaries[m]? with
  | none => return
  | some summary =>
    reach p m
    summary.edges.toList.forM (instantiateEdge p c)
    summary.fieldAllocations.toList.forM (instantiateAllocation p c)
    if p.settings.scale = .methodLevel then fabricateFormals p m c
    summary.staticCalls.toList.forM (instantiateCall p c)
    summary.dynamicCalls.toList.forM (attachDynamic p · c)
    summary.unknownCalls.toList.forM (attachUnknown p · c)
    modify fun s =>
      if s.captures.contains m then { s with links := s.links.push (c, m) } else s

/-- Connects a captured variable with all its instances; one without any is left out for now. -/
def linkCapture (p : Problem) (c : ContextId) (capture : Capture) : Run Unit := do
  let instances ← (← get).graph.nodesOf p.scene capture.source
  if instances.isEmpty then p.scene.leaveOut p.settings.explains [capture.source]
  else
    let target ← value p c capture.target none
    instances.forM fun (_, source) => do
      let _ ← flow source target .capture none
      if capture.writes then discard (flow target source .capture none)

/-- Connects the captured variables of a method under a context. -/
def link (p : Problem) (a : Activation) : Run Unit := do
  (((← get).captures[a.2]?).getD []).forM (linkCapture p a.1)

/-- Works off the agenda; the flag tells whether anything was instantiated. The fuel bounds the
number of entries taken from it. -/
def drainAgenda (p : Problem) : (fuel : Nat) → (changed : Bool) → Run Bool
  | 0, _ => throw .outOfFuel
  | fuel + 1, changed => do
    match (← get).agenda.pop? with
    | none => return changed
    | some ((c, m), agenda) =>
      modify fun s => { s with agenda }
      if (← get).instantiated.contains (c, m) then drainAgenda p fuel changed
      else
        modify fun s => { s with instantiated := s.instantiated.insert (c, m) }
        let _ ← summarize p m
        instantiate p m c
        drainAgenda p fuel true

/-- Instantiates all that is reachable so far; the flag tells whether there was any. -/
def expand (p : Problem) (fuel : Nat) : Run Bool := do
  let changed ← drainAgenda p fuel false
  if changed then (← get).links.toList.forM (link p)
  return changed

end PointsTo.Run
