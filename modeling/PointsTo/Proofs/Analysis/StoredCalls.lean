import PointsTo.Proofs.Analysis.DynamicCalls
import PointsTo.Proofs.Analysis.ReflectiveCalls

/-! Calls of functions that are stored in a field of the receiver. -/
namespace PointsTo

/-- Whether the calls of a method are left to a model because of its class and its name. -/
def Problem.IsModelled (p : Problem) (m : MethodId) : Prop :=
  ∃ api, p.apiOf? m = .ok (some api) ∧
    (api.isStorageWrite || api.isStorageRead || api.isTask || api.isWorker) = true

namespace State

variable {p : Problem} {s : State} {g : NodeId} {a : Node}

/-- No model takes over the call of a function with a body, unless the function itself is modelled
or the call has the name of a function method. -/
theorem not_modelled_of_function {site : StaticSite} (ha : s.graph.At g a)
    (hfun : a.isFunction = true) (hbody : p.HasBody site.callee)
    (hplain : ¬ p.IsModelled site.callee)
    (hname : ApiName.of? Platform.functionClass site.signature.name = none) :
    ¬ s.Modelled p site (some g) := by
  rintro ⟨model, t, hfind⟩
  obtain ⟨api, hapi⟩ := Model.exists_apiOf? hfind
  rw [Model.find?_run ha hfun hapi hbody, hname, EStateM.Result.ok.injEq] at hfind
  have htakes := List.find?_some hfind.1
  cases api with
  | none => cases model <;> cases htakes
  | some api =>
    refine hplain ⟨api, hapi, ?_⟩
    cases model <;> simp_all [Model.takes]

end State

/-- A call on a receiver of unknown class whose object has no callee for it is resolved to the
functions in the field of that name. If such a function has a body, no model takes over the call,
and the function did not lead back to the caller when the call was resolved to it, then at the end
of the analysis the arguments of the call have arrived, after those that the function is bound to.
A model takes the call over if the field has the name of a function method. -/
theorem Problem.analyze_callsStored {p : Problem} {fuel n : Nat} {again : Bool} {s₀ s : State}
    (h : p.analyze fuel = .ok () s) (hn : p.after fuel n = .ok again s₀) {i : SiteId}
    {site : DynamicSite} {c : ContextId} {u o x g : NodeId} {a : Node} {f : FunctionInfo}
    (hcall : s₀.graph.Attaches (·.unknownCalls) u (i, c))
    (hsite : s₀.calls.sites.dynamic? i = some site) (ho : s₀.points.Has u o)
    (hobject : s₀.graph.IsObject o) (hnot : ¬ s₀.graph.IsFunction o)
    (hnone : ∃ t, Run.callees p site o s₀ = .ok [] t)
    (hx : s₀.graph.IsField x o (.named site.signature.name)) (hg : s₀.points.Has x g)
    (ha : s₀.graph.At g a) (hf : a.function? = some f) (hbody : p.HasBody f.method)
    (hmodel : ¬ p.IsModelled f.method)
    (hname : ApiName.of? Platform.functionClass site.signature.name = none)
    (hpointer : site.signature.name ≠ Name.pointerCall) :
    (∃ t t', s₀.Resolution p site c g f.method t t') ∧
    ∀ t t', s₀.Resolution p site c g f.method t t' →
      t.calls.reaches f.method site.caller = false →
      ∃ j c', s.calls.sites.static? j = some (site.resolved j f.method) ∧
        s.CalleeContext p j c (some g) f.method c' ∧ (c', f.method) ∈ s.instantiated ∧
        s.PassesArguments p site c f.method c' a.applied := by
  have hend := finished_of_analyze h
  have hs₀ := between_of_after hn
  have hr := retains_of_after h hn
  have hfun : a.isFunction = true := by rw [Node.isFunction, hf]; rfl
  have hid := hs₀.sites.dynamic_id hsite
  -- the call was resolved for the object, without a callee, so that it is tried through the field
  have hregisters : s₀.graph.Registers u (i, c) := by
    obtain ⟨b, info, hb, hinfo, hd⟩ := hcall
    exact State.registers_iff_attaches.2 ⟨b, info, hb, hinfo, by simp [PointerInfo.calls, hd]⟩
  have hresolved : (i, c, o) ∈ s₀.resolved := by
    refine (hs₀.dispatched u (i, c) o hregisters ho hobject).resolve_right ?_
    rintro ⟨⟨site', hsite', -, hname'⟩, -⟩
    cases Option.some.inj (hsite'.symm.trans hsite)
    exact hpointer hname'
  have haccounts := (reachable_of_after hn).accounts
  have hleft := (haccounts.concluded _ hresolved).postponed site hsite hnone
  have hfield := hs₀.retried _ hleft site hsite hpointer hnot x g hx hg ⟨a, ha, hfun⟩
  -- the function was called
  obtain ⟨t, t', hres, -⟩ := haccounts.fields _ hfield site a f (hid ▸ hsite) ha hf
  refine ⟨⟨t, t', hres⟩, fun t t' hres hback => ?_⟩
  obtain ⟨j, hj, hwired⟩ := hres.wired hback hbody
  obtain ⟨c', offset, hc'⟩ := hwired.resolve_left
    (State.not_modelled_of_function ha hfun hbody hmodel hname)
  obtain ⟨a', ha', rfl⟩ := hc'.applied
  cases Option.some.inj (ha'.symm.trans ha)
  have hc' := hc'.retains hr
  exact ⟨j, c', hr.calls.sites.static? hj, hc'.selected.calleeContext,
    hend.mem_instantiated hc'.awaited, hend.passesArguments hc'⟩

/-- The program `o = new Foo; f = g; x = new Foo; o.name = f; o.name(x)` for the given name, where
the class of `o` is unknown to the call and `p` is the formal of `g`. -/
def storedUnder (name : String) : Problem where
  scene := {
    files := #[⟨⟨0⟩, "main", ⟨0⟩, ⟨0⟩, ∅, ∅⟩]
    classes := #[⟨⟨0⟩, "Main", none, ⟨0⟩, none, false, ∅⟩, ⟨⟨1⟩, "Foo", none, ⟨0⟩, none, false, ∅⟩]
    methods := #[
      plainMethod 0 "main" { stmts := #[⟨0⟩, ⟨1⟩, ⟨2⟩, ⟨3⟩, ⟨4⟩] },
      { plainMethod 1 "g" { stmts := #[⟨5⟩] } with params := [.any] }]
    stmts := #[⟨⟨0⟩, .assign ⟨0⟩ ⟨3⟩⟩, ⟨⟨0⟩, .assign ⟨1⟩ ⟨4⟩⟩, ⟨⟨0⟩, .assign ⟨2⟩ ⟨5⟩⟩,
      ⟨⟨0⟩, .assign ⟨6⟩ ⟨1⟩⟩, ⟨⟨0⟩, .call ⟨7⟩⟩, ⟨⟨1⟩, .assign ⟨8⟩ ⟨9⟩⟩]
    values := #[.var "o" .any, .var "f" .any, .var "x" .any, .new "Foo", .functionRef ⟨1⟩,
      .new "Foo", .field ⟨0⟩ ⟨"Foo", name⟩, .instanceCall ⟨0⟩ ⟨Name.unknownClass, name⟩ [⟨2⟩],
      .var "p" .any, .parameter 0 .any] }

/-- After the first round the function is in the field, and the call finds no method. -/
private def findsStored (s : State) (site : DynamicSite) (o : Node) (f : FunctionInfo)
    (info : PointerInfo) : Bool :=
  decide ((⟨0⟩, .empty) ∈ info.unknownCalls ∧ s.points.Has ⟨1⟩ ⟨0⟩ ∧ o.isObject = true ∧
    o.isFunction = false ∧ o.fields.lookup (.named site.signature.name) = some ⟨7⟩ ∧
    s.points.Has ⟨7⟩ ⟨2⟩ ∧ f = { method := ⟨1⟩ } ∧ site.signature.name = "run" ∧
    s.calls.reaches ⟨1⟩ site.caller = false) &&
  endsWith (Run.callees (storedUnder "run") site ⟨0⟩ s) fun found _ => found.isEmpty

/-- The argument of `o.run(x)` arrives at `g`, which never leads back to the module. -/
theorem Problem.analyze_callsStored_storedUnder :
    ∃ again s₀ s site t t' j c', (storedUnder "run").after 3 1 = .ok again s₀ ∧
      s₀.Resolution (storedUnder "run") site .empty ⟨2⟩ ⟨1⟩ t t' ∧
      (storedUnder "run").analyze 3 = .ok () s ∧
      s.calls.sites.static? j = some (site.resolved j ⟨1⟩) ∧
      s.CalleeContext (storedUnder "run") j .empty (some ⟨2⟩) ⟨1⟩ c' ∧ (c', ⟨1⟩) ∈ s.instantiated ∧
      s.PassesArguments (storedUnder "run") site .empty ⟨1⟩ c' 0 := by
  obtain ⟨again, s₀, hn, hs₀⟩ := exists_of_endsWith (r := (storedUnder "run").after 3 1)
    (q := fun _ s => (s.calls.sites.dynamic? ⟨0⟩).any fun site => s.graph.nodes[1]?.any fun u =>
      s.graph.nodes[0]?.any fun o => s.graph.nodes[2]?.any fun g => g.function?.any fun f =>
      u.pointer?.any fun info => findsStored s site o f info) (by decide +kernel)
  obtain ⟨_, s, h, -⟩ := exists_of_endsWith (r := (storedUnder "run").analyze 3)
    (q := fun _ _ => true) (by decide +kernel)
  simp only [findsStored, Bool.and_eq_true, Option.any_eq_true, decide_eq_true_eq] at hs₀
  obtain ⟨site, hsite, u, hu, o, ho, g, hg, f, hf, info, hinfo, hfacts, hfound⟩ := hs₀
  obtain ⟨hcall, hpoints, hobject, hnot, hfield, hstored, rfl, hname, hback⟩ := hfacts
  obtain ⟨found, t, hfound, hempty⟩ := exists_of_endsWith hfound
  rw [List.isEmpty_iff] at hempty
  subst hempty
  have hplain : ¬ s₀.graph.IsFunction ⟨0⟩ := by
    rintro ⟨o', ho', hfun⟩
    cases Option.some.inj (ho'.symm.trans ho)
    rw [hnot] at hfun
    cases hfun
  have hmodel : ¬ (storedUnder "run").IsModelled ⟨1⟩ := by
    rintro ⟨api, hapi, -⟩
    cases hapi
  have happlied : g.applied = 0 := by
    rw [Node.applied, hf]
    rfl
  obtain ⟨⟨t₁, t', hres⟩, hpasses⟩ := analyze_callsStored h hn ⟨u, info, hu, hinfo, hcall⟩ hsite hpoints
    ⟨o, ho, hobject⟩ hplain ⟨t, hfound⟩ ⟨o, ho, hfield⟩ hstored hg hf ⟨_, rfl, rfl⟩ hmodel
    (by rw [hname]; rfl) (by rw [hname]; decide)
  obtain ⟨j, c', hj, hc'⟩ := hpasses t₁ t' hres (hres.not_reaches hback)
  exact ⟨again, s₀, s, site, t₁, t', j, c', hn, hres, h, hj, happlied ▸ hc'⟩

/-- Under the name of a function method the stored function does not get the argument. -/
theorem Problem.analyze_losesStored :
    (storedUnder "run").outcome 3 [⟨8⟩] = some [[.value ⟨5⟩]] ∧
    ∀ name ∈ ["call", "apply", "bind"], (storedUnder name).outcome 3 [⟨8⟩] = some [[]] := by
  decide +kernel

/-- The program `o = new Foo; o.run = f; o.run = g; o.run()`, where `f` calls `g` through a variable
with an object of its own, and `g` calls `f` in the same way. -/
def storedTwice (collection : Collection) : Problem where
  scene := {
    files := #[⟨⟨0⟩, "main", ⟨0⟩, ⟨0⟩, ∅, ∅⟩]
    classes := #[⟨⟨0⟩, "Main", none, ⟨0⟩, none, false, ∅⟩, ⟨⟨1⟩, "Foo", none, ⟨0⟩, none, false, ∅⟩]
    methods := #[plainMethod 0 "main" { stmts := #[⟨0⟩, ⟨1⟩, ⟨2⟩, ⟨3⟩] },
      { plainMethod 1 "f" { stmts := #[⟨4⟩, ⟨5⟩, ⟨6⟩, ⟨7⟩] } with params := [.any] },
      { plainMethod 2 "g" { stmts := #[⟨8⟩, ⟨9⟩, ⟨10⟩, ⟨11⟩] } with params := [.any] }]
    stmts := #[⟨⟨0⟩, .assign ⟨0⟩ ⟨1⟩⟩, ⟨⟨0⟩, .assign ⟨2⟩ ⟨3⟩⟩, ⟨⟨0⟩, .assign ⟨2⟩ ⟨4⟩⟩,
      ⟨⟨0⟩, .call ⟨5⟩⟩, ⟨⟨1⟩, .assign ⟨6⟩ ⟨14⟩⟩, ⟨⟨1⟩, .assign ⟨7⟩ ⟨4⟩⟩, ⟨⟨1⟩, .assign ⟨8⟩ ⟨9⟩⟩,
      ⟨⟨1⟩, .call ⟨15⟩⟩, ⟨⟨2⟩, .assign ⟨10⟩ ⟨14⟩⟩, ⟨⟨2⟩, .assign ⟨11⟩ ⟨3⟩⟩,
      ⟨⟨2⟩, .assign ⟨12⟩ ⟨13⟩⟩, ⟨⟨2⟩, .call ⟨16⟩⟩]
    values := #[.var "o" .any, .new "Foo", .field ⟨0⟩ ⟨"Foo", "run"⟩, .functionRef ⟨1⟩,
      .functionRef ⟨2⟩, .instanceCall ⟨0⟩ ⟨Name.unknownClass, "run"⟩ [], .var "p" .any,
      .var "h" .any, .var "d" .any, .new "Foo", .var "q" .any, .var "k" .any, .var "e" .any,
      .new "Foo", .parameter 0 .any, .pointerCall ⟨7⟩ [⟨8⟩], .pointerCall ⟨11⟩ [⟨12⟩]] }
  settings := { collection }

/-- The order in which the functions of a field are enumerated decides which of them calls the other:
that call is skipped which would lead back. -/
theorem Problem.outcome_depends_on_order :
    (storedTwice .dense).outcome 5 [⟨6⟩, ⟨10⟩] = some [[], [.value ⟨9⟩]] ∧
    (storedTwice (.sparse default)).outcome 5 [⟨6⟩, ⟨10⟩] = some [[.value ⟨13⟩], []] := by
  decide +kernel

end PointsTo
