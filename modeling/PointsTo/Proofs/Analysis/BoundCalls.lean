import PointsTo.Proofs.Analysis.Links

/-! Calls of functions that bind calls made of other ones. Such a function remembers the last bind
call only, with its context, however many there were before. -/
namespace PointsTo

/-- No bound function is made on the way from `g` to `g'`. -/
abbrev FlowGraph.BindsNothing : FlowGraph → FlowGraph → Prop :=
  Interns fun _ l => ∀ origin i, l ≠ .bound origin i

theorem FlowGraph.Interns.unbound {g g' : FlowGraph} (h : g.BindsNothing g') {c : ContextId}
    {origin : NodeId} {i : SiteId} (hnew : g.interned[(c, Location.bound origin i)]? = none) :
    g'.interned[(c, Location.bound origin i)]? = none := by
  refine Option.eq_none_iff_forall_ne_some.2 fun n hn => ?_
  rcases h c _ n hn with hn | hl
  · cases hnew.symm.trans hn
  · exact hl origin i rfl

namespace Run
open State FlowGraph

variable {p : Problem} {s : State} {c : ContextId} {site : StaticSite} {g : NodeId}
  {stmt : Option StmtId}

theorem bindsNothing_value {v : ValueId} (hs : s.graph.Consistent p.scene) :
    Ensures (value p c v stmt) s fun _ s' => s.graph.BindsNothing s'.graph := by
  have hentails : p.scene.Entails fun _ l => ∀ origin i, l ≠ .bound origin i :=
    ⟨by simp, by simp, by simp⟩
  refine (ensures_grow (FlowGraph.ensures_value hs)).mono ?_
  rintro n _ ⟨graph, rfl, -, -, hinterns⟩
  exact hinterns _ hentails (by simp)

theorem bindsNothing_argumentAt {i : Nat} (hs : s.graph.Consistent p.scene) :
    Ensures (argumentAt p site c i) s fun _ s' => s.graph.BindsNothing s'.graph := by
  unfold argumentAt argument
  split
  · split
    · exact ensures_pure (.refl _)
    · refine ensures_lift_bind fun a _ => ?_
      split
      · exact ensures_bind (bindsNothing_value hs) fun _ _ h => ensures_pure h
      · exact ensures_pure (.refl _)
  · exact ensures_pure (.refl _)

/-- What a bind call makes remembers that call. -/
theorem ensures_bindCall {b : NodeId} (hs : s.Sane p)
    (hnew : s.graph.interned[(c, Location.bound g site.id)]? = none) :
    Ensures (Model.Reflection.bind p site c g) s fun _ s' =>
      s'.graph.interned[(c, Location.bound g site.id)]? = some b → ∃ a receiver, s'.graph.At b a ∧
        a.function? = some
          ⟨site.callee, some ⟨site.id, (site.args.getD []).length - 1, c⟩, receiver⟩ ∧
        s'.SourceAt p c (site.args.getD [])[0]? receiver := by
  unfold Model.Reflection.bind targetNode
  cases site.target with
  | none => exact ensures_pure fun hb => nomatch hnew.symm.trans hb
  | some t =>
    rw [bind_assoc]
    refine ensures_serving_bind hs.serves (bindsNothing_value hs.graph) walks_value ?_
    intro target s₁ hnothing₁ hs₁ _
    rw [pure_bind]
    refine ensures_serving_bind hs₁ ((bindsNothing_argumentAt hs₁.1.graph).and
      (connects_argumentAt hs₁.1.graph)) walks_argumentAt ?_
    rintro receiver s₂ ⟨hnothing₂, -, hsource⟩ hs₂ _
    have hnew₂ := hnothing₂.unbound (hnothing₁.unbound hnew)
    -- the function is new, so that it remembers this call and not another one
    refine ensures_serving_bind hs₂ (ensures_grow ensures_intern)
      (walks_grow fun _ hg => ensures_boundFunction hg) ?_
    rintro bound _ ⟨graph, rfl, ⟨hold, -⟩ | ⟨-, rfl, rfl⟩⟩ hs₃ hr₃
    · cases hnew₂.symm.trans hold
    refine ensures_bind (walks_address (w := .dispatch) nofun _ hs₃) fun _ s' hsteps' => ?_
    have hr' := hsteps'.retains hs₃.1
    have hs' := (hsteps'.serves hs₃).1
    obtain ⟨a, ha, hkeeps⟩ := hr'.graph.nodes _ _ (at_withNode.2 (.inr ⟨rfl, rfl⟩))
    refine ensures_pure fun hb => ?_
    have hsame := (hs'.graph.interned ..).2 ⟨a, ha, hkeeps.context, hkeeps.location⟩
    cases hb.symm.trans hsame
    refine ⟨a, receiver, ha, hkeeps.function?, ?_⟩
    exact hsource.persists (hr₃.trans hr').graph hs₂.1.graph hs'.graph

end Run

namespace State

variable {p : Problem} {m : MethodId} {s : State} {b : NodeId}

/-- The function value was made of a function of `m` by the given bind calls, one after the other,
each under its own context. Anything may happen between them. -/
inductive Bound (p : Problem) (m : MethodId) :
    State → NodeId → List (StaticSite × ContextId) → Prop where
  | function {s : State} {n : NodeId} {a : Node} : s.Sane p → s.graph.At n a →
      a.function? = some { method := m } → Bound p m s n []
  | bind {s s' : State} {g b : NodeId} {binds : List (StaticSite × ContextId)} {site : StaticSite}
      {c : ContextId} {new : List NodeId} : Bound p m s g binds → site.callee = m →
      s.calls.sites.static? site.id = some site →
      s.graph.interned[(c, Location.bound g site.id)]? = none →
      Model.Reflection.bind p site c g s = .ok new s' →
      s'.graph.interned[(c, Location.bound g site.id)]? = some b →
      Bound p m s' b (binds ++ [(site, c)])
  | later {s s' : State} {b : NodeId} {binds : List (StaticSite × ContextId)} :
      Bound p m s b binds → s.Retains p s' → s'.Sane p → Bound p m s' b binds

theorem Sane.steps_of_bind {site : StaticSite} {c : ContextId} {g : NodeId} {new : List NodeId}
    {s' : State} (hs : s.Sane p) (h : Model.Reflection.bind p site c g s = .ok new s') :
    s.Steps p .dispatch s' := by
  have hbind : Run.Walks p .dispatch ⟨.empty, none⟩ (Model.Reflection.bind p site c g) := by
    refine .bind Run.walks_targetNode fun target? => ?_
    split
    · exact .pure []
    refine .bind Run.walks_argumentAt fun receiver => ?_
    refine .bind (Run.walks_grow fun _ hg => FlowGraph.ensures_boundFunction hg) fun bound => ?_
    exact .bind (Run.walks_address (by decide)) fun _ => .pure []
  exact (hbind s hs.serves).1 h

theorem Bound.sane {binds : List (StaticSite × ContextId)} (h : s.Bound p m b binds) :
    s.Sane p := by
  induction h with
  | function hs => exact hs
  | bind _ _ _ _ hrun _ ih => exact (ih.steps_of_bind hrun).sane ih
  | later _ _ hs => exact hs

/-- Of all the bind calls a function remembers the last one. -/
theorem Bound.boundTo {binds : List (StaticSite × ContextId)} {last : StaticSite} {c : ContextId}
    (h : s.Bound p m b (binds ++ [(last, c)])) : ∃ a f, s.graph.At b a ∧ a.function? = some f ∧
      s.BoundTo p f (last.args.getD []) c := by
  generalize hall : binds ++ [(last, c)] = all at h
  induction h with
  | function => simp at hall
  | bind hbound _ hsite hnew hrun hb =>
    obtain ⟨-, hlast⟩ := List.append_inj' hall rfl
    cases hlast
    have hs := hbound.sane
    have hr := (hs.steps_of_bind hrun).retains hs
    obtain ⟨a, receiver, ha, hf, hreceiver⟩ := (Run.ensures_bindCall hs hnew).1 hrun hb
    refine ⟨a, _, ha, hf, ⟨rfl, rfl, last, hr.calls.sites.static? hsite, rfl⟩, hreceiver⟩
  | @later s s' b _ hbound hr hs' ih =>
    obtain ⟨a, f, ha, hf, hto⟩ := ih hall
    obtain ⟨a', ha', hkeeps⟩ := hr.graph.nodes b a ha
    exact ⟨a', f, ha', hkeeps.function?.trans hf, hto.retains hr hbound.sane.graph hs'.graph⟩

end State

/-- A function that bind calls made gets, when it is called, the receiver and the arguments of the
last of them, under the context of that one, and then the arguments of the call. Nothing is left of
the bind calls before. -/
theorem Run.wire_lastBind {p : Problem} {m : MethodId} {s s' : State} {b : NodeId}
    {binds : List (StaticSite × ContextId)} {last site : StaticSite} {c₀ c : ContextId}
    {formals : Array (Option ValueId)} {new : List NodeId}
    (hb : s.Bound p m b (binds ++ [(last, c₀)])) (hs : s.Serves p ⟨c, site.id⟩)
    (hcallee : site.callee = m) (hbody : p.HasBody m)
    (hformals : p.scene.parameterLocals m = .ok formals)
    (h : wire p site c (some b) s = .ok new s') :
    ∃ c', s'.Selected p site.id c (some b) m c' ∧
      s.Connects p (receivedLinks p m c₀ c' (last.args.getD []) formals.toList ∪
        callLinks p m site.target c c' (site.args.getD [])
          (formals.toList.drop ((last.args.getD []).length - 1))) s' := by
  subst hcallee
  obtain ⟨a, f, ha, hf, hto⟩ := hb.boundTo
  exact (connects_wire hs hbody ha hf hto hformals).1 h

/-- The program `g = f.bind(o, a); h = g.bind(u, b); h(x)`, where `f` is a method with the formals
`p`, `q` and `r`. -/
def chainedBinds : Problem where
  scene := {
    files := #[⟨⟨0⟩, "main", ⟨0⟩, ⟨0⟩, ∅, ∅⟩]
    classes := #[⟨⟨0⟩, "Main", none, ⟨0⟩, none, false, ∅⟩, ⟨⟨1⟩, "Foo", none, ⟨0⟩, none, false, ∅⟩]
    methods := #[
      plainMethod 0 "main" { stmts := #[⟨0⟩, ⟨1⟩, ⟨2⟩, ⟨3⟩, ⟨4⟩, ⟨5⟩, ⟨6⟩, ⟨7⟩, ⟨8⟩] },
      { plainMethod 1 "m" { stmts := #[⟨9⟩, ⟨10⟩, ⟨11⟩, ⟨12⟩] } with
        isStatic := false, params := [.any, .any, .any] }]
    stmts := #[⟨⟨0⟩, .assign ⟨0⟩ ⟨8⟩⟩, ⟨⟨0⟩, .assign ⟨1⟩ ⟨9⟩⟩, ⟨⟨0⟩, .assign ⟨2⟩ ⟨10⟩⟩,
      ⟨⟨0⟩, .assign ⟨3⟩ ⟨11⟩⟩, ⟨⟨0⟩, .assign ⟨4⟩ ⟨12⟩⟩, ⟨⟨0⟩, .assign ⟨5⟩ ⟨13⟩⟩,
      ⟨⟨0⟩, .assign ⟨6⟩ ⟨14⟩⟩, ⟨⟨0⟩, .assign ⟨7⟩ ⟨15⟩⟩, ⟨⟨0⟩, .call ⟨16⟩⟩,
      ⟨⟨1⟩, .assign ⟨17⟩ ⟨18⟩⟩, ⟨⟨1⟩, .assign ⟨19⟩ ⟨20⟩⟩, ⟨⟨1⟩, .assign ⟨21⟩ ⟨22⟩⟩,
      ⟨⟨1⟩, .assign ⟨23⟩ ⟨24⟩⟩]
    values := #[.var "f" .any, .var "o" .any, .var "a" .any, .var "u" .any, .var "b" .any,
      .var "x" .any, .var "g" .any, .var "h" .any, .functionRef ⟨1⟩, .new "Foo", .new "Foo",
      .new "Foo", .new "Foo", .new "Foo",
      .instanceCall ⟨0⟩ ⟨Platform.functionClass, "bind"⟩ [⟨1⟩, ⟨2⟩],
      .instanceCall ⟨6⟩ ⟨Platform.functionClass, "bind"⟩ [⟨3⟩, ⟨4⟩], .pointerCall ⟨7⟩ [⟨5⟩],
      .var "this" .any, .self "Main", .var "p" .any, .parameter 0 .any, .var "q" .any,
      .parameter 1 .any, .var "r" .any, .parameter 2 .any] }

/-- At the end of the analysis the calls are there to bind the function twice more, in the other
order, and to call what comes out. -/
private def bindsAgain (s : State) : Bool :=
  (s.calls.sites.static? ⟨4⟩).any fun first => (s.calls.sites.static? ⟨3⟩).any fun last =>
  (s.calls.sites.static? ⟨5⟩).any fun call =>
    first.callee == ⟨1⟩ && last.callee == ⟨1⟩ && call.callee == ⟨1⟩ &&
    (s.graph.interned[(ContextId.empty, Location.bound ⟨0⟩ ⟨4⟩)]?).isNone &&
    endsWith (Model.Reflection.bind chainedBinds first .empty ⟨0⟩ s) fun _ s₁ =>
      (s₁.graph.interned[(ContextId.empty, Location.bound ⟨0⟩ ⟨4⟩)]?).any fun g =>
        (s₁.graph.interned[(ContextId.empty, Location.bound g ⟨3⟩)]?).isNone &&
        endsWith (Model.Reflection.bind chainedBinds last .empty g s₁) fun _ s₂ =>
          (s₂.graph.interned[(ContextId.empty, Location.bound g ⟨3⟩)]?).any fun b =>
            endsWith (Run.wire chainedBinds call .empty (some b) s₂) fun _ _ => true

/-- A function that was bound twice gets what it was bound to last. -/
theorem Run.wire_lastBind_chainedBinds :
    ∃ s s' b first last site c' new, s.Bound chainedBinds ⟨1⟩ b [(first, .empty), (last, .empty)] ∧
      wire chainedBinds site .empty (some b) s = .ok new s' ∧
      s'.Selected chainedBinds site.id .empty (some b) ⟨1⟩ c' ∧
      s.Connects chainedBinds
        (receivedLinks chainedBinds ⟨1⟩ .empty c' (last.args.getD [])
          [some ⟨19⟩, some ⟨21⟩, some ⟨23⟩] ∪
        callLinks chainedBinds ⟨1⟩ site.target .empty c' (site.args.getD [])
          ([some ⟨19⟩, some ⟨21⟩, some ⟨23⟩].drop ((last.args.getD []).length - 1))) s' := by
  obtain ⟨_, s, h, hs⟩ := exists_of_endsWith (r := chainedBinds.analyze 5)
    (q := fun _ s => (s.graph.nodes[0]?.any fun a => a.function? == some ⟨⟨1⟩, none, none⟩) &&
      bindsAgain s) (by decide +kernel)
  simp only [bindsAgain, Bool.and_eq_true, Option.any_eq_true, beq_iff_eq,
    Option.isNone_iff_eq_none] at hs
  obtain ⟨⟨a, ha, hfun⟩, first, hfirst, last, hlast, site, hsite, hall⟩ := hs
  obtain ⟨⟨⟨⟨hfirst', hlast'⟩, hsite'⟩, hnew⟩, hrun⟩ := hall
  have hsane : s.Sane chainedBinds := (Problem.finished_of_analyze h).toSane
  -- the function, and what the two bind calls make of it
  have hfunction : s.Bound chainedBinds ⟨1⟩ ⟨0⟩ [] := .function hsane ha hfun
  obtain ⟨_, s₁, hrun₁, hs₁⟩ := exists_of_endsWith hrun
  simp only [Bool.and_eq_true, Option.any_eq_true, Option.isNone_iff_eq_none] at hs₁
  obtain ⟨g, hg, hnew₁, hrun⟩ := hs₁
  have hid := hsane.sites.static_id hfirst
  have hbound₁ := hfunction.bind hfirst' (hid ▸ hfirst) (hid ▸ hnew) hrun₁ (hid ▸ hg)
  obtain ⟨_, s₂, hrun₂, hs₂⟩ := exists_of_endsWith hrun
  simp only [Option.any_eq_true] at hs₂
  obtain ⟨b, hb, hrun⟩ := hs₂
  obtain ⟨new, s', hrun', -⟩ := exists_of_endsWith hrun
  have hr₁ := (hsane.steps_of_bind hrun₁).retains hsane
  have hr₂ := (hbound₁.sane.steps_of_bind hrun₂).retains hbound₁.sane
  have hid := hsane.sites.static_id hlast
  have hbound₂ := hbound₁.bind hlast' (hr₁.calls.sites.static? (hid ▸ hlast)) (hid ▸ hnew₁) hrun₂
    (hid ▸ hb)
  have hsite₂ := hr₂.calls.sites.static? (hr₁.calls.sites.static? hsite)
  have hformals : chainedBinds.scene.parameterLocals ⟨1⟩ =
      .ok #[some ⟨19⟩, some ⟨21⟩, some ⟨23⟩] := rfl
  obtain ⟨c', hselected, hconnects⟩ := wire_lastBind hbound₂ (hbound₂.sane.serves_static hsite₂)
    hsite' ⟨_, rfl, rfl⟩ hformals hrun'
  exact ⟨s₂, s', b, first, last, site, c', new, hbound₂, hrun', hselected, hconnects⟩

/-- The first bind call is lost: the receiver of the method is the one of the second bind call, its
first argument the one that this call was given, and nothing is passed for `r`. -/
theorem Run.wire_forgetsBinds :
    chainedBinds.outcome 5 [⟨17⟩, ⟨19⟩, ⟨21⟩, ⟨23⟩] =
      some [[.value ⟨11⟩], [.value ⟨12⟩], [.value ⟨13⟩], []] := by
  decide +kernel

end PointsTo
