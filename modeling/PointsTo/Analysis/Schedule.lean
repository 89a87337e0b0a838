import PointsTo.Analysis.Edges

/-! Entries, the agenda, summaries, and the contexts of callees. -/
namespace PointsTo.Run

/-- Puts a method under a context on the agenda, unless it was taken from it before. -/
def schedule (m : MethodId) (c : ContextId) : Run Unit := modify fun s =>
  if s.instantiated.contains (c, m) then s
  else { s with scheduled := s.scheduled.insert m, agenda := s.agenda.push (c, m) }

/-- Adds a method to the call graph. -/
def reach (p : Problem) (m : MethodId) : Run Unit := do
  let decl ← p.scene.method m
  discard (onCalls (·.addNode m decl.kind))

/-- Makes a method an entry. -/
def addEntry (p : Problem) (m : MethodId) : Run Unit := do
  let c ← choose (·.enter p.settings.policy p.settings.depth m)
  reach p m
  modify fun s =>
    if s.entries.contains (c, m) then s else { s with entries := s.entries.push (c, m) }
  schedule m c

/-- Surveys the body of a method. -/
def survey (p : Problem) (m : MethodId) : Run (List Capture) := fun s =>
  let calls := s.calls
  let s := { s with calls := {} }
  match Survey.ofMethod p.scene p.settings.explains m calls s.log with
  | .ok () v =>
    .ok v.captures { s with
      calls := v.calls, log := v.log, summaries := s.summaries.insert m v.summary }
  | .error f v => .error (.fault f) { s with calls := v.calls, log := v.log }

/-- Makes the summary of a method once. The methods that own its captured variables become
entries. The flag tells whether the summary is new; methods of the platform have none, which
always counts as new. -/
def summarize (p : Problem) (m : MethodId) : Run Bool := do
  if (← get).summaries.contains m then return false
  if !(← p.scene.method m).hasBody then return (← p.scene.classOfMethod m).isPlatform
  let captures ← survey p m
  if !captures.isEmpty then
    (Capture.owners captures).forM fun owner => do
      if !(← get).scheduled.contains owner then addEntry p owner
    modify fun s => { s with captures := s.captures.insert m captures }
  return true

/-- Whether a method hands out one shared object. The answer is given once. -/
def isSingleton (p : Problem) (m : MethodId) : Run Bool := do
  match (← get).singletons[m]? with
  | some known => return known
  | none =>
    let decl ← p.scene.method m
    let found := decl.isStatic && (((← get).summaries[m]?).map (·.sharesResult)).getD false
    modify fun s => { s with singletons := s.singletons.insert m found }
    return found

/-- The context of a callee. Methods that hand out one shared object have the empty context. -/
def calleeContext (p : Problem) (site : StaticSite) (caller : ContextId)
    (object : Option NodeId) (callee : MethodId) : Run ContextId := do
  if ← isSingleton p callee then return .empty
  choose (·.select p.settings.policy p.settings.depth caller site.id object callee)

end PointsTo.Run
