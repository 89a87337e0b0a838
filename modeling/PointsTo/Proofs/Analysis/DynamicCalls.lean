import PointsTo.Proofs.Analysis.Arguments
import PointsTo.Proofs.Analysis.Issued

/-! At the end of an analysis, the arguments of a dispatched call have arrived at its callee, unless
the callee led back to the caller when the call was resolved. -/
namespace PointsTo

namespace State

variable {p : Problem} {s s' : State} {site : DynamicSite} {c c' : ContextId} {o : NodeId}
  {callee : MethodId}

/-- The arguments of a call under the context `c` have arrived at the formals of a callee under
`c'`, from the formal `offset` on up to the first one without a local. -/
def PassesArguments (p : Problem) (s : State) (site : DynamicSite) (c : ContextId)
    (callee : MethodId) (c' : ContextId) (offset : Nat) : Prop :=
  ∀ args formals (k : Nat) a v, site.args = some args →
    p.scene.parameterLocals callee = .ok formals → args[k]? = some a →
    formals[offset + k]? = some (some v) → (∀ j < k, ∃ u, formals[offset + j]? = some (some u)) →
    a.Carries p.scene → ∀ x, s.PointsAt p c a x → s.PointsAt p c' (.value v) x

theorem Finished.passesArguments (h : s.Finished p) {i : SiteId} {offset : Nat}
    (hwired : s.Wired p (site.resolved i callee) c (some o) c' offset) :
    s.PassesArguments p site c callee c' offset := by
  intro args formals k a v hargs hlocals ha hv hfirst hcarries x hx
  have hdrop : ∀ j, (formals.toList.drop offset)[j]? = formals[offset + j]? := by
    intro j
    rw [List.getElem?_drop, Array.getElem?_toList]
  refine h.pointsAt (hwired.arguments args formals hargs hlocals k a v ha ?_ ?_ hcarries) hx
  · rw [hdrop, hv]
  · intro j hj
    rw [hdrop]
    exact hfirst j hj

end State

/-- Every call on an object that was found to have a callee was resolved to it at some moment. If the
callee did not lead back to the caller then, the arguments have arrived at the end of the analysis. -/
theorem Problem.analyze_passesArguments {p : Problem} {fuel : Nat} {s : State}
    (h : p.analyze fuel = .ok () s) {site : DynamicSite} {c : ContextId} {o : NodeId}
    {callee : MethodId} (hsite : s.calls.sites.dynamic? site.id = some site)
    (hmade : s.Makes p site c o callee) (hbody : p.HasBody callee) :
    (∃ t t', s.Resolution p site c o callee t t') ∧
    ∀ t t', s.Resolution p site c o callee t t' → t.calls.reaches callee site.caller = false →
      ∃ i, s.calls.sites.static? i = some (site.resolved i callee) ∧
        (s.Unmodelled p (site.resolved i callee) (some o) →
          ∃ c' offset, s.Applied (some o) offset ∧ s.CalleeContext p i c (some o) callee c' ∧
            (c', callee) ∈ s.instantiated ∧ s.PassesArguments p site c callee c' offset) := by
  have hf := finished_of_analyze h
  obtain ⟨t, t', hres, -⟩ := (reachable_of_analyze h).accounts.performed hsite hmade
  refine ⟨⟨t, t', hres⟩, fun t t' hres hback => ?_⟩
  obtain ⟨i, hi, hwired⟩ := hres.wired hback hbody
  refine ⟨i, hi, fun hmodel => ?_⟩
  obtain ⟨c', offset, hc'⟩ := hwired.resolve_left hmodel.not_modelled
  exact ⟨c', offset, hc'.applied, hc'.selected.calleeContext,
    hf.mem_instantiated hc'.awaited, hf.passesArguments hc'⟩

namespace State

variable {p : Problem} {s : State}

/-- A call on an object finds the given method (a test). -/
def findsCallee (p : Problem) (s : State) (site : DynamicSite) (o : NodeId) (callee : MethodId) :
    Bool :=
  endsWith (Run.callees p site o s) fun found _ => found.contains callee

theorem resolvesTo_of_findsCallee {site : DynamicSite} {o : NodeId} {callee : MethodId}
    (h : s.findsCallee p site o callee = true) : s.ResolvesTo p site o callee := by
  obtain ⟨found, t, hfound, hmem⟩ := exists_of_endsWith h
  exact ⟨found, List.contains_iff_mem.1 hmem, t, hfound⟩

/-- No model takes a call on the given object (a test). -/
def leavesUnmodelled (p : Problem) (s : State) (o : NodeId) : Bool :=
  s.calls.sites.sites.all fun
    | .static site => endsWith (Model.find? p site (some o) s) fun model? _ => model?.isNone
    | .dynamic _ => true

theorem unmodelled_of_leavesUnmodelled {o : NodeId} (h : s.leavesUnmodelled p o = true)
    {i : SiteId} {site : StaticSite} (hi : s.calls.sites.static? i = some site) :
    s.Unmodelled p site (some o) := by
  have hmem := Array.mem_of_getElem? (SiteTable.static?_eq_some.1 hi)
  exact unmodelled_of_endsWith (Array.all_eq_true'.1 h _ hmem)

end State

/-- Two modules that call each other: `first(p)` is `x = new Foo; f = second; f(x)`, and `second(q)` is
`y = new Bar; g = first; g(y)`. -/
def crossing : Problem where
  scene := {
    files := #[⟨⟨0⟩, "a", ⟨0⟩, ⟨0⟩, ∅, ∅⟩, ⟨⟨1⟩, "b", ⟨0⟩, ⟨1⟩, ∅, ∅⟩]
    classes := #[⟨⟨0⟩, "Main", none, ⟨0⟩, none, false, ∅⟩, ⟨⟨1⟩, "Foo", none, ⟨0⟩, none, false, ∅⟩,
      ⟨⟨2⟩, "Bar", none, ⟨0⟩, none, false, ∅⟩]
    methods := #[
      { plainMethod 0 "first" { stmts := #[⟨0⟩, ⟨1⟩, ⟨2⟩, ⟨3⟩] } with params := [.any] },
      { plainMethod 1 "second" { stmts := #[⟨4⟩, ⟨5⟩, ⟨6⟩, ⟨7⟩] } with params := [.any] }]
    stmts := #[⟨⟨0⟩, .assign ⟨0⟩ ⟨1⟩⟩, ⟨⟨0⟩, .assign ⟨2⟩ ⟨4⟩⟩, ⟨⟨0⟩, .assign ⟨3⟩ ⟨5⟩⟩,
      ⟨⟨0⟩, .call ⟨6⟩⟩, ⟨⟨1⟩, .assign ⟨7⟩ ⟨8⟩⟩, ⟨⟨1⟩, .assign ⟨9⟩ ⟨11⟩⟩, ⟨⟨1⟩, .assign ⟨10⟩ ⟨12⟩⟩,
      ⟨⟨1⟩, .call ⟨13⟩⟩]
    values := #[.var "p" .any, .parameter 0 .any, .var "x" .any, .var "f" .any, .new "Foo",
      .functionRef ⟨1⟩, .pointerCall ⟨3⟩ [⟨2⟩], .var "q" .any, .parameter 0 .any, .var "y" .any,
      .var "g" .any, .new "Bar", .functionRef ⟨0⟩, .pointerCall ⟨10⟩ [⟨9⟩]] }

/-- The call `f(x)` has been resolved to `second`, which does not lead back yet (a test). -/
private def resolvesFirst (s : State) : Bool :=
  s.resolved.contains (⟨0⟩, .empty, ⟨2⟩) && (s.calls.sites.dynamic? ⟨0⟩).any fun site =>
    site.id == ⟨0⟩ && (s.findsCallee crossing site ⟨2⟩ ⟨1⟩ && !s.calls.reaches ⟨1⟩ site.caller)

/-- The call `f(x)` hands `x` over to `second`. At the end of the first round, in which it is
resolved, `second` leads back to `first` already, but not yet when the call is resolved. -/
theorem Problem.analyze_passesArguments_crossing :
    ∃ s₂ s site t t' i c' offset, crossing.after 3 1 = .ok true s₂ ∧
      s₂.calls.reaches ⟨1⟩ ⟨0⟩ = true ∧ crossing.analyze 3 = .ok () s ∧
      s.Resolution crossing site .empty ⟨2⟩ ⟨1⟩ t t' ∧
      t.calls.reaches ⟨1⟩ site.caller = false ∧
      s.calls.sites.static? i = some (site.resolved i ⟨1⟩) ∧ s.Applied (some ⟨2⟩) offset ∧
      s.CalleeContext crossing i .empty (some ⟨2⟩) ⟨1⟩ c' ∧ (c', ⟨1⟩) ∈ s.instantiated ∧
      s.PassesArguments crossing site .empty ⟨1⟩ c' offset := by
  obtain ⟨_, s₀, hstart, hs₀⟩ := exists_of_endsWith (r := crossing.start)
    (q := fun _ s₀ => endsWith (Run.pause crossing 3 1 s₀) fun r s₁ => resolvesFirst s₁ &&
      endsWith (Run.finish crossing r.1 r.2 s₁) fun again s₂ => again &&
        (s₂.calls.reaches ⟨1⟩ ⟨0⟩ && endsWith (Run.rounds crossing 3 2 s₂) fun _ s =>
          s.leavesUnmodelled crossing ⟨2⟩)) (by decide +kernel)
  obtain ⟨r, s₁, hpause, hs₁⟩ := exists_of_endsWith hs₀
  obtain ⟨hfirst, hs₁⟩ := Bool.and_eq_true_iff.1 hs₁
  obtain ⟨again, s₂, hfinish, hs₂⟩ := exists_of_endsWith hs₁
  simp only [Bool.and_eq_true] at hs₂
  obtain ⟨rfl, hclosed, hs₂⟩ := hs₂
  obtain ⟨_, s, hrounds, hmodel⟩ := exists_of_endsWith hs₂
  have hround : Run.round crossing 3 s₀ = .ok true s₂ := by
    rw [Run.round_eq_pause 1, bind_run_of_ok hpause, hfinish]
  have h : crossing.analyze 3 = .ok () s := by
    rw [analyze_of_start hstart]
    exact rounds_succ_eq_ok.2 (.inl ⟨s₂, hround, hrounds⟩)
  -- the analysis is made of acts from the middle of the first round on
  obtain ⟨hreach, hrest⟩ :=
    holds_of_safe (S := crossing.everywhere) safe_pause (reachable_of_start hstart) hpause
  have hlater := (holds_of_safe (S := crossing.onward s₁) (safe_finish hrest)
    ⟨hreach, Std.Refl.refl s₁⟩ hfinish).1
  have hhistory := (holds_of_safe (S := crossing.onward s₁) safe_rounds hlater hrounds).1.2.history
  have haccounts := hreach.accounts
  have hr := hhistory.retains haccounts.sane
  simp only [resolvesFirst, Bool.and_eq_true, Option.any_eq_true, beq_iff_eq,
    Bool.not_eq_true'] at hfirst
  obtain ⟨hd, site, hsite, hid, hfound, hopen⟩ := hfirst
  have hsite : s₁.calls.sites.dynamic? site.id = some site := hid ▸ hsite
  have hmade : s₁.Makes crossing site .empty ⟨2⟩ ⟨1⟩ :=
    .inl ⟨hid ▸ Std.TreeSet.contains_iff_mem.1 hd, State.resolvesTo_of_findsCallee hfound⟩
  obtain ⟨t, t', hres, -⟩ := haccounts.performed hsite hmade
  have hback := hres.not_reaches hopen
  have hres : s.Resolution crossing site .empty ⟨2⟩ ⟨1⟩ t t' :=
    { hres with future := hres.future.trans hhistory }
  obtain ⟨i, hi, harrive⟩ := (analyze_passesArguments h (hr.calls.sites.dynamic? hsite)
    (hmade.mono hr (hhistory.precedes haccounts.sane) haccounts.sane) ⟨_, rfl, rfl⟩).2 t t' hres hback
  obtain ⟨c', offset, hc'⟩ := harrive (State.unmodelled_of_leavesUnmodelled hmodel hi)
  exact ⟨s₂, s, site, t, t', i, c', offset,
    after_succ.2 (.inl ⟨s₀, after_zero.2 ⟨hstart, rfl⟩, hround⟩), hclosed, h, hres, hback, hi, hc'⟩

/-- A call is made on `o` for a callee with a body that no model stands for, but `x`, to which its
`k`-th argument points, is not among the objects of the `k`-th formal under any context. -/
structure State.Loses (p : Problem) (s : State) (site : DynamicSite) (c : ContextId) (o : NodeId)
    (callee : MethodId) (k : Nat) (x : NodeId) : Prop where
  known : s.calls.sites.dynamic? site.id = some site
  made : s.Makes p site c o callee
  body : p.HasBody callee
  resolved : ∃ i, s.calls.sites.static? i = some (site.resolved i callee) ∧
    s.Unmodelled p (site.resolved i callee) (some o)
  argument : ∃ args a, site.args = some args ∧ args[k]? = some a ∧ a.Carries p.scene ∧
    s.PointsAt p c a x
  lost : ∃ formals v objects, p.scene.parameterLocals callee = .ok formals ∧
    formals[k]? = some (some v) ∧ s.pointsTo p.scene v = .ok objects ∧ x ∉ objects

/-- Whether a dispatch has lost an object of the argument `u` on its way to the local `v` (a test). -/
def State.losesArgument (p : Problem) (s : State) (d : Dispatch) (callee : MethodId) (k : Nat)
    (u v : ValueId) (x : NodeId) : Bool :=
  match s.calls.sites.dynamic? d.1, s.graph.nodeOf? p.scene d.2.1 u, s.pointsTo p.scene v with
  | some site, .ok (some n), .ok objects =>
    s.resolved.contains d && s.findsCallee p site d.2.2 callee && s.leavesUnmodelled p d.2.2 &&
      s.calls.sites.resolutions.contains (d.1, callee) && site.args.any (·[k]? == some (.value u)) &&
      decide (s.points.Has n x) && !objects.contains x
  | _, _, _ => false

theorem State.loses_of_losesArgument {p : Problem} {s : State} {d : Dispatch} {callee : MethodId}
    {k : Nat} {u v : ValueId} {x : NodeId} {a : Value} {formals : Array (Option ValueId)}
    (h : s.losesArgument p d callee k u v x = true) (hs : s.Sane p) (hbody : p.HasBody callee)
    (ha : p.scene.value u = .ok a ∧ a.isPointer = true)
    (hv : p.scene.parameterLocals callee = .ok formals ∧ formals[k]? = some (some v)) :
    ∃ site, s.Loses p site d.2.1 d.2.2 callee k x := by
  unfold losesArgument at h
  split at h
  next site n objects hsite hn hobjects =>
    simp only [Bool.and_eq_true, Option.any_eq_true, beq_iff_eq, decide_eq_true_eq,
      Bool.not_eq_true', List.contains_eq_mem, decide_eq_false_iff_not] at h
    obtain ⟨⟨⟨⟨⟨⟨hd, hfound⟩, hmodel⟩, hresolved⟩, args, hargs, hk⟩, hx⟩, hlost⟩ := h
    have hid : site.id = d.1 := hs.sites.id _ _ (SiteTable.dynamic?_eq_some.1 hsite)
    rw [Std.TreeMap.contains_eq_isSome_getElem?, Option.isSome_iff_exists] at hresolved
    obtain ⟨i, hi⟩ := hresolved
    obtain ⟨site', hsite', hi⟩ := hs.sites.resolutions _ _ _ hi
    cases Option.some.inj (hsite.symm.trans hsite')
    exact ⟨site, {
      known := hid ▸ hsite
      made := .inl ⟨hid ▸ Std.TreeSet.contains_iff_mem.1 hd, resolvesTo_of_findsCallee hfound⟩
      body := hbody
      resolved := ⟨i, hi, unmodelled_of_leavesUnmodelled hmodel hi⟩
      argument := ⟨args, .value u, hargs, hk, ⟨a, ha⟩, n, hn, hx⟩
      lost := ⟨formals, v, objects, hv.1, hv.2, hobjects, hlost⟩ }⟩
  next => cases h

/-- Calls on objects lose arguments: `g(y)`, which closes the cycle, its only argument, and one for a
callee whose first formal has no local also the second argument. -/
theorem Problem.analyze_loses_arguments :
    (∃ s site c o x, crossing.analyze 3 = .ok () s ∧ s.Loses crossing site c o ⟨0⟩ 0 x) ∧
      ∃ s site c o x, unboundFormal.analyze 3 = .ok () s ∧ s.Loses unboundFormal site c o ⟨1⟩ 1 x := by
  constructor
  · obtain ⟨_, s, h, hs⟩ := exists_of_endsWith (r := crossing.analyze 3)
      (q := fun _ s => s.losesArgument crossing (⟨1⟩, .empty, ⟨6⟩) ⟨0⟩ 0 ⟨9⟩ ⟨0⟩ ⟨4⟩) (by decide +kernel)
    obtain ⟨site, hloses⟩ := State.loses_of_losesArgument hs (finished_of_analyze h).toSane
      ⟨_, rfl, rfl⟩ ⟨rfl, rfl⟩ ⟨rfl, rfl⟩
    exact ⟨s, site, _, _, _, h, hloses⟩
  · obtain ⟨_, s, h, hs⟩ := exists_of_endsWith (r := unboundFormal.analyze 3)
      (q := fun _ s => s.losesArgument unboundFormal (⟨0⟩, ⟨0⟩, ⟨2⟩) ⟨1⟩ 1 ⟨0⟩ ⟨5⟩ ⟨0⟩) (by decide +kernel)
    obtain ⟨site, hloses⟩ := State.loses_of_losesArgument hs (finished_of_analyze h).toSane
      ⟨_, rfl, rfl⟩ ⟨rfl, rfl⟩ ⟨rfl, rfl⟩
    exact ⟨s, site, _, _, _, h, hloses⟩

end PointsTo
