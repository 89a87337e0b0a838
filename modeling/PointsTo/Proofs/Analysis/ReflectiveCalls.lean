import PointsTo.Proofs.Analysis.BoundCalls

/-! Calls of functions through `call`. Such a call is left to a model, which connects it with the
callee in its own way. -/
namespace PointsTo

/-- The modelled method that a method of the scene is, by its class and its name. -/
def Problem.apiOf? (p : Problem) (m : MethodId) : Except Fault (Option ApiName) := do
  let decl ← p.scene.method m
  return ApiName.of? (← p.scene.classOfMethod m).name decl.name

namespace Model
open Run

variable {p : Problem} {s : State} {site : StaticSite} {o : NodeId} {a : Node}
  {api : Option ApiName}

/-- Whether a model takes over the call of a function with a body. What counts is which modelled
method it is, and whether the call has the name of a function method. -/
def takes (api : Option ApiName) (reflective : Bool) : Model → Bool
  | .storage => (api.map fun a => a.isStorageWrite || a.isStorageRead).getD false
  | .reflection => reflective
  | .taskPool => (api.map ApiName.isTask).getD false
  | .worker => (api.map ApiName.isWorker).getD false
  | .sdk | .container => false

theorem apiOf?_eq {m : MethodId} : Model.apiOf? p m = liftM (p.apiOf? m) := by
  unfold Model.apiOf? Problem.apiOf?
  cases p.scene.method m with
  | error e => rfl
  | ok decl => cases p.scene.classOfMethod m <;> rfl

theorem apiOf?_run (h : p.apiOf? site.callee = .ok api) :
    Model.apiOf? p site.callee s = .ok api s := by
  rw [apiOf?_eq, h]
  rfl

theorem isGeneral_run (h : p.apiOf? site.callee = .ok api) (hbody : p.HasBody site.callee) :
    isGeneral p site.callee s = .ok false s := by
  obtain ⟨decl, hdecl, hbody⟩ := hbody
  simp only [Problem.apiOf?, hdecl] at h
  cases howner : p.scene.classOfMethod site.callee with
  | error e => simp [howner, bind, Except.bind] at h
  | ok owner =>
    have hno : (!decl.hasBody && owner.isPlatform && !Platform.isReceiverDependent owner.name &&
        (ApiName.of? owner.name decl.name).isNone) = false := by simp [hbody]
    rw [isGeneral, hdecl, howner]
    exact congrArg (EStateM.Result.ok · s) hno

theorem reflective?_run (ha : s.graph.At o a) (hfun : a.isFunction = true) :
    reflective? site (some o) s =
      .ok (ApiName.of? Platform.functionClass site.signature.name) s := by
  rw [reflective?, bind_run_of_ok (node_eq ha), hfun]
  rfl

theorem containerApi?_run (ha : s.graph.At o a) (hfun : a.isFunction = true) :
    containerApi? site (some o) s = .ok none s := by
  have hno : a.container? = none := by
    cases a with
    | mk _ _ _ kind => cases kind <;> first | rfl | cases hfun
  rw [containerApi?, bind_run_of_ok (node_eq ha), hno]
  rfl

theorem accepts_run (ha : s.graph.At o a) (hfun : a.isFunction = true)
    (hapi : p.apiOf? site.callee = .ok api) (hbody : p.HasBody site.callee) (model : Model) :
    accepts p site (some o) model s =
      .ok (model.takes api (ApiName.of? Platform.functionClass site.signature.name).isSome) s := by
  cases model with
  | storage | taskPool | worker =>
    rw [accepts, bind_run_of_ok (apiOf?_run hapi)]
    rfl
  | reflection =>
    rw [accepts, bind_run_of_ok (reflective?_run ha hfun)]
    rfl
  | sdk => exact isGeneral_run hapi hbody
  | container =>
    rw [accepts, bind_run_of_ok (containerApi?_run ha hfun)]
    rfl

theorem findM?_run {models : List Model} {f : Model → Run Bool} {q : Model → Bool}
    (h : ∀ model, f model s = .ok (q model) s) : models.findM? f s = .ok (models.find? q) s := by
  induction models with
  | nil => rfl
  | cons model models ih =>
    rw [List.findM?, bind_run_of_ok (h model), List.find?_cons]
    cases q model with
    | true => rfl
    | false => exact ih

/-- Which model takes over the call of a function with a body. -/
theorem find?_run (ha : s.graph.At o a) (hfun : a.isFunction = true)
    (hapi : p.apiOf? site.callee = .ok api) (hbody : p.HasBody site.callee) :
    find? p site (some o) s = .ok (all.find? (takes api
      (ApiName.of? Platform.functionClass site.signature.name).isSome)) s :=
  findM?_run (accepts_run ha hfun hapi hbody)

/-- The models can only be asked where it is known what the callee is. -/
theorem exists_apiOf? {object : Option NodeId} {model? : Option Model} {t : State}
    (h : find? p site object s = .ok model? t) : ∃ api, p.apiOf? site.callee = .ok api := by
  rw [find?, all, List.findM?] at h
  obtain ⟨_, _, hstorage, -⟩ := bind_eq_ok.1 h
  rw [accepts, apiOf?_eq] at hstorage
  obtain ⟨_, _, hlift, -⟩ := bind_eq_ok.1 hstorage
  cases hapi : p.apiOf? site.callee with
  | ok api => exact ⟨api, rfl⟩
  | error e =>
    rw [hapi] at hlift
    cases hlift

/-- Where no model takes over the call of a function, the model of function methods takes it over
once it is made through one of these. -/
theorem find?_reflective {r d : StaticSite} (ha : s.graph.At o a) (hfun : a.isFunction = true)
    (hcallee : r.callee = d.callee) (hbody : p.HasBody d.callee)
    (hname : (ApiName.of? Platform.functionClass r.signature.name).isSome = true)
    (h : s.Unmodelled p d (some o)) : find? p r (some o) s = .ok (some .reflection) s := by
  obtain ⟨t, h⟩ := h
  obtain ⟨api, hapi⟩ := exists_apiOf? h
  rw [find?_run ha hfun hapi hbody, EStateM.Result.ok.injEq, List.find?_eq_none] at h
  have hstorage : takes api true .storage = false := by
    simpa [takes] using h.1 .storage (by decide)
  rw [← hcallee] at hapi hbody
  rw [find?_run ha hfun hapi hbody, hname, all, List.find?_cons, hstorage]
  rfl

theorem find?_unmodelled (ha : s.graph.At o a) (hfun : a.isFunction = true)
    (hbody : p.HasBody site.callee) (h : s.Unmodelled p site (some o)) :
    find? p site (some o) s = .ok none s := by
  obtain ⟨t, h⟩ := h
  obtain ⟨api, hapi⟩ := exists_apiOf? h
  rw [find?_run ha hfun hapi hbody, EStateM.Result.ok.injEq] at h
  rw [find?_run ha hfun hapi hbody, h.1]

end Model

namespace Run

variable {p : Problem} {s : State} {site : StaticSite} {c : ContextId} {o : NodeId} {a : Node}

theorem call_eq_wire {object : Option NodeId} (h : Model.find? p site object s = .ok none s) :
    call p site c object s = wire p site c object s := by
  rw [call, bind_run_of_ok h]

theorem call_eq_invoke (ha : s.graph.At o a) (hfun : a.isFunction = true)
    (hname : site.signature.name = "call")
    (h : Model.find? p site (some o) s = .ok (some .reflection) s) :
    call p site c (some o) s = Model.Reflection.invoke p site c o false s := by
  rw [call, bind_run_of_ok h]
  dsimp only [Model.handle]
  rw [bind_run_of_ok (Model.reflective?_run ha hfun), hname]
  rfl

end Run

/-- A call through `call` and a direct call of one function, under one context and from one state.
Each links the arguments and the result with a callee under the context that it selects. The first
one gives the callee its first argument as the receiver, and has no regard to what the function is
bound to. The second one starts with what the function is bound to. So for a function that is not
bound they link the same arguments and results. -/
theorem Run.call_reflective {p : Problem} {m : MethodId} {s s₁ s₂ : State} {g : NodeId} {n : Node}
    {f : FunctionInfo} {bound : List CallArg} {c₀ c : ContextId} {r d : StaticSite}
    {formals : Array (Option ValueId)} {new₁ new₂ : List NodeId}
    (hr : s.Serves p ⟨c, r.id⟩) (hd : s.Serves p ⟨c, d.id⟩) (hn : s.graph.At g n)
    (hf : n.function? = some f) (hbound : s.BoundTo p f bound c₀) (hbody : p.HasBody m)
    (hformals : p.scene.parameterLocals m = .ok formals) (hname : r.signature.name = "call")
    (hcallee : r.callee = m ∧ d.callee = m) (htarget : d.target = r.target)
    (hargs : d.args.getD [] = (r.args.getD []).drop 1) (hunmodelled : s.Unmodelled p d (some g))
    (h₁ : call p r c (some g) s = .ok new₁ s₁) (h₂ : call p d c (some g) s = .ok new₂ s₂) :
    ∃ c₁ c₂, s₁.Selected p r.id c (some g) m c₁ ∧ s₂.Selected p d.id c (some g) m c₂ ∧
      s.Connects p (callLinks p m r.target c c₁ (d.args.getD []) formals.toList ∪
        receiverLinks p m (r.args.getD [])[0]? c c₁) s₁ ∧
      s.Connects p (callLinks p m r.target c c₂ (d.args.getD [])
        (formals.toList.drop (bound.length - 1)) ∪
        receivedLinks p m c₀ c₂ bound formals.toList) s₂ ∧
      (f.binding = none →
        s.Connects p (callLinks p m r.target c c₂ (d.args.getD []) formals.toList) s₂) := by
  obtain ⟨rfl, hsame⟩ := hcallee
  have hfun : n.isFunction = true := by rw [Node.isFunction, hf]; rfl
  have hbody' : p.HasBody d.callee := hsame ▸ hbody
  -- the call through `call` is left to the model of function methods
  have hfind := Model.find?_reflective hn hfun hsame.symm hbody' (by rw [hname]; rfl) hunmodelled
  rw [call_eq_invoke hn hfun hname hfind] at h₁
  obtain ⟨c₁, hselected₁, hconnects₁⟩ := (connects_invoke hr hbody hformals).1 h₁
  -- the direct one is wired
  rw [call_eq_wire (Model.find?_unmodelled hn hfun hbody' hunmodelled)] at h₂
  obtain ⟨c₂, hselected₂, hconnects₂⟩ :=
    (connects_wire hd hbody' hn hf hbound (hsame.symm ▸ hformals)).1 h₂
  rw [hsame] at hselected₂ hconnects₂
  rw [htarget, Set.union_comm] at hconnects₂
  refine ⟨c₁, c₂, hselected₁, hselected₂, ?_, hconnects₂, fun hnone => ?_⟩
  · rw [receivedLinks, Set.union_right_comm, ← hargs] at hconnects₁
    exact hconnects₁
  · have hbinding := hbound.binding
    rw [hnone] at hbinding
    subst hbinding
    simpa using hconnects₂

/-- The program `g = f.bind(o, a)`, where `f` is a method with the formals `p` and `q`, and two
calls after it. -/
def boundThenCalled (first second : Value) : Problem where
  scene := {
    files := #[⟨⟨0⟩, "main", ⟨0⟩, ⟨0⟩, ∅, ∅⟩]
    classes := #[⟨⟨0⟩, "Main", none, ⟨0⟩, none, false, ∅⟩, ⟨⟨1⟩, "Foo", none, ⟨0⟩, none, false, ∅⟩]
    methods := #[
      plainMethod 0 "main" { stmts := #[⟨0⟩, ⟨1⟩, ⟨2⟩, ⟨3⟩, ⟨4⟩, ⟨5⟩, ⟨9⟩, ⟨10⟩] },
      { plainMethod 1 "m" { stmts := #[⟨6⟩, ⟨7⟩, ⟨8⟩] } with
        isStatic := false, params := [.any, .any] }]
    stmts := #[⟨⟨0⟩, .assign ⟨0⟩ ⟨6⟩⟩, ⟨⟨0⟩, .assign ⟨1⟩ ⟨7⟩⟩, ⟨⟨0⟩, .assign ⟨2⟩ ⟨8⟩⟩,
      ⟨⟨0⟩, .assign ⟨3⟩ ⟨9⟩⟩, ⟨⟨0⟩, .assign ⟨4⟩ ⟨10⟩⟩, ⟨⟨0⟩, .assign ⟨5⟩ ⟨11⟩⟩,
      ⟨⟨1⟩, .assign ⟨12⟩ ⟨13⟩⟩, ⟨⟨1⟩, .assign ⟨14⟩ ⟨15⟩⟩, ⟨⟨1⟩, .assign ⟨16⟩ ⟨17⟩⟩,
      ⟨⟨0⟩, .call ⟨18⟩⟩, ⟨⟨0⟩, .call ⟨19⟩⟩]
    values := #[.var "f" .any, .var "o" .any, .var "a" .any, .var "t" .any, .var "x" .any,
      .var "g" .any, .functionRef ⟨1⟩, .new "Foo", .new "Foo", .new "Foo", .new "Foo",
      .instanceCall ⟨0⟩ ⟨Platform.functionClass, "bind"⟩ [⟨1⟩, ⟨2⟩],
      .var "this" .any, .self "Main", .var "p" .any, .parameter 0 .any, .var "q" .any,
      .parameter 1 .any, first, second] }

/-- The call `g.call(t, x)`. -/
def reflectiveCall : Value := .instanceCall ⟨5⟩ ⟨Platform.functionClass, "call"⟩ [⟨3⟩, ⟨4⟩]

/-- The call `g(x)`. -/
def directCall : Value := .pointerCall ⟨5⟩ [⟨4⟩]

/-- The program with both calls. -/
def calledBothWays : Problem := boundThenCalled reflectiveCall directCall

/-- At the end of the analysis the bound function can be called both ways once more. -/
private def callsAgain (s : State) (f : FunctionInfo) (bind r d : StaticSite) : Bool :=
  decide (f.binding = some ⟨⟨3⟩, 1, .empty⟩ ∧ bind.args = some [.value ⟨1⟩, .value ⟨2⟩] ∧
    r.signature.name = "call" ∧ (r.callee = ⟨1⟩ ∧ d.callee = ⟨1⟩) ∧ d.target = r.target ∧
    d.args.getD [] = (r.args.getD []).drop 1) &&
  (f.receiver.any fun x => s.graph.nodeOf? calledBothWays.scene .empty ⟨1⟩ == .ok (some x)) &&
  endsWith (Model.find? calledBothWays d (some ⟨11⟩) s) (fun model _ => model.isNone) &&
  endsWith (Run.call calledBothWays r .empty (some ⟨11⟩) s) (fun _ _ => true) &&
  endsWith (Run.call calledBothWays d .empty (some ⟨11⟩) s) fun _ _ => true

/-- The direct call of the bound function starts with `o` and `a`, the other one does not. -/
theorem Run.call_reflective_calledBothWays :
    ∃ s s₁ s₂ r d c₁ c₂ new₁ new₂,
      call calledBothWays r .empty (some ⟨11⟩) s = .ok new₁ s₁ ∧
      call calledBothWays d .empty (some ⟨11⟩) s = .ok new₂ s₂ ∧
      s.Connects calledBothWays (callLinks calledBothWays ⟨1⟩ r.target .empty c₁ (d.args.getD [])
          [some ⟨14⟩, some ⟨16⟩] ∪
        receiverLinks calledBothWays ⟨1⟩ (r.args.getD [])[0]? .empty c₁) s₁ ∧
      s.Connects calledBothWays (callLinks calledBothWays ⟨1⟩ r.target .empty c₂ (d.args.getD [])
          [some ⟨16⟩] ∪
        receivedLinks calledBothWays ⟨1⟩ .empty c₂ [.value ⟨1⟩, .value ⟨2⟩]
          [some ⟨14⟩, some ⟨16⟩]) s₂ := by
  obtain ⟨_, s, h, hs⟩ := exists_of_endsWith (r := calledBothWays.analyze 4)
    (q := fun _ s => s.graph.nodes[11]?.any fun n => n.function?.any fun f =>
      (s.calls.sites.static? ⟨3⟩).any fun bind => (s.calls.sites.static? ⟨4⟩).any fun r =>
      (s.calls.sites.static? ⟨5⟩).any fun d => callsAgain s f bind r d) (by decide +kernel)
  simp only [callsAgain, Bool.and_eq_true, Option.any_eq_true, beq_iff_eq, decide_eq_true_eq] at hs
  obtain ⟨n, hn, f, hf, bind, hbind, r, hr, d, hd, hagain⟩ := hs
  obtain ⟨⟨⟨⟨hsites, x, hx, hnode⟩, hfind⟩, hrun₁⟩, hrun₂⟩ := hagain
  obtain ⟨hbinding, hargs, hname, hcallee, htarget, hrest⟩ := hsites
  have hsane : s.Sane calledBothWays := (Problem.finished_of_analyze h).toSane
  have hbound : s.BoundTo calledBothWays f [.value ⟨1⟩, .value ⟨2⟩] .empty := by
    refine ⟨?_, ?_⟩
    · rw [hbinding]
      exact ⟨rfl, rfl, bind, hbind, by rw [hargs]; rfl⟩
    · rw [hx]
      exact ⟨.value ⟨1⟩, rfl, ⟨_, rfl, rfl⟩, hnode⟩
  obtain ⟨model, t, hfind, hnone⟩ := exists_of_endsWith hfind
  rw [Option.isNone_iff_eq_none] at hnone
  subst hnone
  obtain ⟨new₁, s₁, hrun₁, -⟩ := exists_of_endsWith hrun₁
  obtain ⟨new₂, s₂, hrun₂, -⟩ := exists_of_endsWith hrun₂
  have hformals : calledBothWays.scene.parameterLocals ⟨1⟩ = .ok #[some ⟨14⟩, some ⟨16⟩] := rfl
  obtain ⟨c₁, c₂, -, -, hreflective, hdirect, -⟩ := call_reflective (hsane.serves_static hr)
    (hsane.serves_static hd) hn hf hbound ⟨_, rfl, rfl⟩ hformals hname hcallee htarget hrest
    ⟨t, hfind⟩ hrun₁ hrun₂
  exact ⟨s, s₁, s₂, r, d, c₁, c₂, new₁, new₂, hrun₁, hrun₂, hreflective, hdirect⟩

/-- A bound function that is called through `call` loses what it is bound to: the call gives it `t`
as the receiver and `x` as the first argument, where the direct call gives it `o`, `a` and `x`. -/
theorem Run.call_ignoresBinding :
    (boundThenCalled reflectiveCall reflectiveCall).outcome 4 [⟨12⟩, ⟨14⟩, ⟨16⟩] =
      some [[.value ⟨9⟩], [.value ⟨10⟩], []] ∧
    (boundThenCalled directCall directCall).outcome 4 [⟨12⟩, ⟨14⟩, ⟨16⟩] =
      some [[.value ⟨7⟩], [.value ⟨8⟩], [.value ⟨10⟩]] := by
  decide +kernel

end PointsTo
