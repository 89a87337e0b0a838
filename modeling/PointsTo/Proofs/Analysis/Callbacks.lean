import PointsTo.Proofs.Analysis.Issued
import PointsTo.Proofs.Analysis.Monotone

/-! Models run callbacks by calls through function values. Such a call is registered for the context
that asks for it first, and at the end of an analysis it has been made on all that its value points
to. A second context that asks for the same call gets nothing of its own. -/
namespace PointsTo

variable {p : Problem} {fuel : Nat} {s t : State} {i : SiteId} {c : ContextId} {pointer : NodeId}
  {args : List CallArg}

/-- Whatever parts have led to is in order, and so the calls that models make up are registered. -/
theorem Problem.kept_of_analyze (h : p.analyze fuel = .ok () t) : t.Kept p True :=
  (reachable_of_analyze h).holds.1

namespace State

/-- A call on an object was resolved to a callee and connected with it, unless the callee led back to
the caller at that moment or a model takes the call over. -/
def CalledOn (p : Problem) (s : State) (site : DynamicSite) (c : ContextId) (o : NodeId)
    (callee : MethodId) : Prop :=
  ∃ t t', s.Resolution p site c o callee t t' ∧ (t.calls.reaches callee site.caller = true ∨
    ∃ i, s.calls.sites.static? i = some (site.resolved i callee) ∧
      (p.HasBody callee → s.Modelled p (site.resolved i callee) (some o) ∨
        ∃ c' offset, s.Wired p (site.resolved i callee) c (some o) c' offset))

theorem Performed.calledOn {site : DynamicSite} {o : NodeId} {callee : MethodId}
    (h : s.Performed p site c o callee) : s.CalledOn p site c o callee := by
  obtain ⟨t, t', hres, hmade⟩ := h
  refine ⟨t, t', hres, hmade.imp_right ?_⟩
  rintro ⟨i, hi, hmade⟩
  exact ⟨i, hi, hmade.wired⟩

/-- The call `i` under the context `c` has been made on everything that `pointer` points to, and so
all functions there have been called. -/
def CalledBack (p : Problem) (s : State) (i : SiteId) (c : ContextId) (pointer : NodeId) : Prop :=
  ∀ o, s.points.Has pointer o → (i, c, o) ∈ s.resolved ∧
    ∀ site a f, s.calls.sites.dynamic? i = some site → s.graph.At o a → a.function? = some f →
      s.CalledOn p site c o f.method

/-- A call of a function value runs the function. -/
theorem resolvesTo_function {site : DynamicSite} {o : NodeId} {a : Node} {f : FunctionInfo}
    (hname : site.signature.name = Name.pointerCall) (ha : s.graph.At o a)
    (hf : a.function? = some f) : s.ResolvesTo p site o f.method := by
  refine ⟨[f.method], List.mem_singleton_self _, s, ?_⟩
  have hnode : Run.node o s = .ok a s := by
    simp only [Run.node, Run.grow, Growing.node, FlowGraph.node_eq_ok.2 ha]
  refine bind_eq_ok.2 ⟨a, s, hnode, ?_⟩
  rw [hf]
  simp only [hname]
  rfl

/-- A registered call has been dispatched on every object of its receiver. -/
theorem Finished.mem_resolved (h : s.Finished p) (hs : s.Ordered p)
    (hcall : s.graph.Registers pointer (i, c)) {o : NodeId} (ho : s.points.Has pointer o) :
    (i, c, o) ∈ s.resolved :=
  (h.dispatched pointer (i, c) o hcall ho (hs.points pointer o ho)).resolve_right
    fun hmute => h.not_mem_retrigger pointer hmute.2

/-- At the end all calls that are attached to a value have been made on its objects. -/
theorem Finished.calledBack (h : s.Finished p) (hs : s.Ordered p) (haccounts : p.Accounts s)
    (hi : s.CallsThrough i pointer args)
    (hcall : s.graph.Attaches (·.dynamicCalls) pointer (i, c)) : s.CalledBack p i c pointer := by
  intro o ho
  obtain ⟨a, info, ha, hinfo, hmem⟩ := hcall
  have hd : (i, c, o) ∈ s.resolved := h.mem_resolved hs ⟨a, ha, info, hinfo, .inl hmem⟩ ho
  refine ⟨hd, fun site b f hsite hb hf => ?_⟩
  obtain ⟨site', hsite', hname, -⟩ := hi
  cases Option.some.inj (hsite'.symm.trans hsite)
  exact ((haccounts.concluded _ hd).performed site f.method hsite
    (resolvesTo_function hname hb hf)).calledOn

end State

theorem Run.callPointer_known {origin : StaticSite}
    (h : s.synthetic.lookup (origin.id, pointer, args) = some i) :
    callPointer origin c pointer args s = .ok (some i) s := by
  refine bind_eq_ok.2 ⟨s, s, rfl, ?_⟩
  rw [h]
  rfl

theorem Run.callsPointer_of_eq_ok {origin : StaticSite} {r : Option SiteId} (hs : s.Ordered p)
    (h : callPointer origin c pointer args s = .ok r t) :
    CallsPointer origin.id c pointer args s t r ∧ s.Changes p t := by
  have hsafe : (State.watch p ⟨False, False⟩).Safe s (callPointer origin c pointer args)
      (CallsPointer origin.id c pointer args s) := watch_callPointer_loose id (.when False.elim)
    False.elim False.elim fun _ _ => .when False.elim
  have hout := hsafe ⟨⟨hs, False.elim⟩, False.elim⟩
  rw [h] at hout
  cases hout with
  | ok _ hl hcalls => exact ⟨hcalls, hl.1⟩

/-- A call that a model makes up is one through the given value with the given arguments. The
context that asks for it first gets it registered, and at the end it has been made for that context
on every object of the value. Whoever asks for it later changes nothing. -/
theorem Problem.callPointer_registers_once (p : Problem) :
    (∀ s origin c pointer args i t, (State.initial p.settings).Changes p s →
      Run.callPointer origin c pointer args s = .ok (some i) t →
        t.CallsThrough i pointer args ∧
        (s.synthetic.lookup (origin.id, pointer, args) = none →
          t.graph.Attaches (·.dynamicCalls) pointer (i, c) ∧ pointer ∈ t.retrigger ∧
          ∀ fuel u, t.Changes p u → p.analyze fuel = .ok () u → u.CalledBack p i c pointer) ∧
        ∀ j, s.synthetic.lookup (origin.id, pointer, args) = some j → j = i ∧ t = s) ∧
    ∀ fuel t, p.analyze fuel = .ok () t → ∀ r ∈ t.synthetic,
      t.CallsThrough r.2 r.1.2.1 r.1.2.2 ∧
      ∃ a, t.graph.At r.1.2.1 a ∧ (a.pointer?.isSome → ∃ c,
        t.graph.Attaches (·.dynamicCalls) r.1.2.1 (r.2, c) ∧ t.CalledBack p r.2 c r.1.2.1) := by
  constructor
  · intro s origin c pointer args i t hs hrun
    have hordered := hs.ordered (State.ordered_initial p)
    obtain ⟨hcalls, hl⟩ := Run.callsPointer_of_eq_ok hordered hrun
    cases hcalls with
    | known hi ht =>
      subst ht
      refine ⟨hordered.synthetic _ (mem_of_lookup hi), fun hnone => ?_, fun j hj => ⟨?_, rfl⟩⟩
      · rw [hi] at hnone
        cases hnone
      · exact Option.some.inj (hj.symm.trans hi)
    | attached hnew _ hthrough hcall hwoken =>
      refine ⟨hthrough, fun _ => ⟨hcall, hwoken, fun fuel u hu hend => ?_⟩, fun j hj => ?_⟩
      · have he := hu.extends
        exact (finished_of_analyze hend).calledBack (kept_of_analyze hend).toOrdered
          (reachable_of_analyze hend).accounts (hthrough.extends he.calls) (he.graph.attaches hcall)
      · rw [hnew] at hj
        cases hj
  · intro fuel t hend r hr
    have hkept := kept_of_analyze hend
    have hthrough := hkept.synthetic r hr
    obtain ⟨a, ha, hcalls⟩ := hkept.registered trivial r hr
    refine ⟨hthrough, a, ha, fun hpointer => ?_⟩
    obtain ⟨c, hc⟩ := hcalls hpointer
    exact ⟨c, hc, (finished_of_analyze hend).calledBack hkept.toOrdered
      (reachable_of_analyze hend).accounts hthrough hc⟩

/-- `f = cb; G.cb = f; a = new Foo; b = new Bar; h(a); h(b)`, where the body of `h(x)` is
`taskpool.execute(G.cb, x)`. -/
def sharedCallback : Problem where
  scene := {
    files := #[⟨⟨0⟩, "main", ⟨0⟩, ⟨0⟩, ∅, ∅⟩]
    classes := #[⟨⟨0⟩, "Main", none, ⟨0⟩, none, false, ∅⟩,
      ⟨⟨1⟩, Platform.taskPoolClass, none, ⟨0⟩, none, true, ∅⟩]
    methods := #[
      plainMethod 0 "main" {
        locals := (((∅ : NameMap ValueId).insert "f" ⟨1⟩).insert "a" ⟨3⟩).insert "b" ⟨5⟩
        stmts := #[⟨0⟩, ⟨1⟩, ⟨2⟩, ⟨3⟩, ⟨4⟩, ⟨5⟩] },
      { plainMethod 1 "h" {
          locals := (∅ : NameMap ValueId).insert "x" ⟨9⟩
          stmts := #[⟨6⟩, ⟨7⟩] } with params := [.any] },
      { plainMethod 2 "cb" {
          locals := (∅ : NameMap ValueId).insert "p" ⟨11⟩
          stmts := #[⟨8⟩] } with params := [.any] },
      { plainMethod 3 "execute" {} with
        owner := ⟨1⟩, signature := ⟨Platform.taskPoolClass, "execute"⟩, body := none }]
    stmts := #[⟨⟨0⟩, .assign ⟨1⟩ ⟨2⟩⟩, ⟨⟨0⟩, .assign ⟨0⟩ ⟨1⟩⟩, ⟨⟨0⟩, .assign ⟨3⟩ ⟨4⟩⟩,
      ⟨⟨0⟩, .assign ⟨5⟩ ⟨6⟩⟩, ⟨⟨0⟩, .call ⟨7⟩⟩, ⟨⟨0⟩, .call ⟨8⟩⟩, ⟨⟨1⟩, .assign ⟨9⟩ ⟨10⟩⟩,
      ⟨⟨1⟩, .call ⟨13⟩⟩, ⟨⟨2⟩, .assign ⟨11⟩ ⟨12⟩⟩]
    values := #[.staticField ⟨"G", "cb"⟩, .var "f" .any, .functionRef ⟨2⟩, .var "a" .any,
      .new "Foo", .var "b" .any, .new "Bar", .staticCall ⟨"Main", "h"⟩ [⟨3⟩],
      .staticCall ⟨"Main", "h"⟩ [⟨5⟩], .var "x" .any, .parameter 0 .any, .var "p" .any,
      .parameter 0 .any, .staticCall ⟨Platform.taskPoolClass, "execute"⟩ [⟨0⟩, ⟨9⟩]] }

/-- The call of `G.cb` with `x` that the task makes has been made for some context. -/
theorem Problem.callPointer_registers_once_sharedCallback :
    ∃ t, sharedCallback.analyze 5 = .ok () t ∧
      ((⟨2⟩, ⟨2⟩, [.value ⟨9⟩]), ⟨3⟩) ∈ t.synthetic ∧ t.CallsThrough ⟨3⟩ ⟨2⟩ [.value ⟨9⟩] ∧
      ∃ c, t.graph.Attaches (·.dynamicCalls) ⟨2⟩ (⟨3⟩, c) ∧
        t.CalledBack sharedCallback ⟨3⟩ c ⟨2⟩ := by
  obtain ⟨_, t, h, ht⟩ := exists_of_endsWith (r := sharedCallback.analyze 5)
    (q := fun _ t => t.synthetic.contains ((⟨2⟩, ⟨2⟩, [.value ⟨9⟩]), ⟨3⟩) &&
      (t.graph.nodes[2]?).all (·.pointer?.isSome)) (by decide +kernel)
  rw [Bool.and_eq_true, List.contains_iff_mem] at ht
  obtain ⟨hmem, hpointer⟩ := ht
  obtain ⟨hthrough, a, ha, hcalls⟩ := (callPointer_registers_once sharedCallback).2 5 t h _ hmem
  rw [show t.graph.nodes[2]? = some a from ha, Option.all_some] at hpointer
  exact ⟨t, h, hmem, hthrough, hcalls hpointer⟩

/-- The task is run under two contexts, both for the function in `G.cb`. Its call is registered and
made for the first of them only, although both get hold of it, and what `x` is under the second
never arrives at `p`. -/
theorem Problem.callPointer_misses_context :
    ∃ t origin, sharedCallback.analyze 5 = .ok () t ∧
      t.calls.sites.static? ⟨2⟩ = some origin ∧ origin.caller = ⟨1⟩ ∧
      (⟨1⟩, ⟨1⟩) ∈ t.instantiated ∧ (⟨2⟩, ⟨1⟩) ∈ t.instantiated ∧
      Run.callPointer origin ⟨2⟩ ⟨2⟩ [.value ⟨9⟩] t = .ok (some ⟨3⟩) t ∧
      ¬ t.graph.Attaches (·.dynamicCalls) ⟨2⟩ (⟨3⟩, ⟨2⟩) ∧
      t.points.Has ⟨2⟩ ⟨0⟩ ∧ (⟨3⟩, ⟨1⟩, ⟨0⟩) ∈ t.resolved ∧ (⟨3⟩, ⟨2⟩, ⟨0⟩) ∉ t.resolved ∧
      t.pointsTo sharedCallback.scene ⟨9⟩ = .ok [⟨3⟩, ⟨5⟩] ∧
      t.pointsTo sharedCallback.scene ⟨11⟩ = .ok [⟨3⟩] := by
  obtain ⟨_, t, h, ht⟩ := exists_of_endsWith (r := sharedCallback.analyze 5) (q := fun _ t =>
    (t.calls.sites.static? ⟨2⟩).any (fun origin => origin.id == ⟨2⟩ && origin.caller == ⟨1⟩) &&
      (t.graph.nodes[2]?).all (·.pointer?.all (!·.dynamicCalls.contains (⟨3⟩, ⟨2⟩))) &&
      decide (t.synthetic.lookup (⟨2⟩, ⟨2⟩, [.value ⟨9⟩]) = some ⟨3⟩ ∧
        (⟨1⟩, ⟨1⟩) ∈ t.instantiated ∧ (⟨2⟩, ⟨1⟩) ∈ t.instantiated ∧ t.points.Has ⟨2⟩ ⟨0⟩ ∧
        (⟨3⟩, ⟨1⟩, ⟨0⟩) ∈ t.resolved ∧ (⟨3⟩, ⟨2⟩, ⟨0⟩) ∉ t.resolved ∧
        t.pointsTo sharedCallback.scene ⟨9⟩ = .ok [⟨3⟩, ⟨5⟩] ∧
        t.pointsTo sharedCallback.scene ⟨11⟩ = .ok [⟨3⟩])) (by decide +kernel)
  simp only [Bool.and_eq_true, Option.any_eq_true, beq_iff_eq, decide_eq_true_eq] at ht
  obtain ⟨⟨⟨origin, horigin, hid, hcaller⟩, hcalls⟩, hknown, hfirst, hsecond, hrest⟩ := ht
  rw [← hid] at hknown
  refine ⟨t, origin, h, horigin, hcaller, hfirst, hsecond, Run.callPointer_known hknown, ?_, hrest⟩
  rintro ⟨a, info, ha, hinfo, hd⟩
  rw [show t.graph.nodes[2]? = some a from ha, Option.all_some, hinfo, Option.all_some] at hcalls
  simp [hd] at hcalls

end PointsTo
