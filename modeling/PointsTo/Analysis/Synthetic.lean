import PointsTo.Analysis.Edges

/-! Calls through function values that no statement of the program makes. -/
namespace PointsTo.Run

/-- Calls a function value, such as a callback handed to the platform, on behalf of a call site.
The call is made once for each call site, function value and list of arguments. -/
def callPointer (origin : StaticSite) (c : ContextId) (pointer : NodeId) (args : List CallArg) :
    Run (Option SiteId) := do
  let key := (origin.id, pointer, args)
  match (← get).synthetic.lookup key with
  | some site => return some site
  | none =>
    let site ← onCalls fun g =>
      let (site, sites) := g.sites.addDynamic origin.stmt ⟨Name.unknownClass, Name.pointerCall⟩
        (some args) none (some (.node pointer)) origin.caller none
      (site, { g with sites })
    modify fun s => { s with synthetic := (key, site) :: s.synthetic }
    if (← node pointer).pointer?.isSome then
      mapPointer pointer fun i => { i with dynamicCalls := i.dynamicCalls ++ [(site, c)] }
      wake pointer
      return some site
    else
      note (.notCallable pointer)
      return none

end PointsTo.Run
