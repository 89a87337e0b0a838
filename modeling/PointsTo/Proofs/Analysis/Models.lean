import PointsTo.Proofs.Analysis.Answers
import PointsTo.Proofs.Analysis.Walk
import PointsTo.Proofs.Regime.Calls

/-! The steps of a call with a known callee. A call without a target gives no object to a node. -/
namespace PointsTo
open State FlowGraph Run

variable {p : Problem} {w : Phase} {s : State} {α : Type} {m : Run α}

/-- The computation is made of steps of the phase, and `V` holds of its result. -/
def Run.WalksFrom (p : Problem) (w : Phase) (s : State) (m : Run α) (V : State → α → Prop) : Prop :=
  s.Sane p → Ensures m s fun a t => s.Steps p w t ∧ V t a

theorem Run.Walks.walksFrom {k : Caller} (h : Walks p w k m) (hk : s.Sane p → s.Serves p k) :
    WalksFrom p w s m fun _ _ => True :=
  fun hs => (h s (hk hs)).mono fun _ _ h => ⟨h, trivial⟩

theorem Run.walksFrom_grow {m : Growing α}
    (h : ∀ g, g.Consistent p.scene → Ensures m g fun _ g' => g.Grows p.scene g') :
    WalksFrom p w s (grow m) fun _ _ => True :=
  (walks_grow h).walksFrom Sane.serves

/-- While methods are expanded, contexts are only chosen for calls that the program states, and on
no object. -/
def Regime.walking (p : Problem) (w : Phase) : Regime p where
  Strict := False
  Answers := w ≠ .quiet
  Node _ _ := True
  Target _ _ := True
  Base _ _ := w ≠ .expansion
  Context s c := s.Serves p ⟨c, none⟩
  Site _ a := w = .quiet → a.target = none
  Entry s a := (w = .quiet → a.target = none) ∧ s.Serves p ⟨.empty, a.id⟩ ∧
    (w = .expansion → s.Stated a.id)
  wellFormed := Problem.wellFormed_of_false
  Keeps := WalksFrom p w
  Later := Steps p w
  node_later _ h := h
  target_later _ h := h
  base_later _ h := h
  context_later hl h := hl.serves h
  site_later _ h := h
  entry_later hl h := ⟨h.1, hl.serves h.2.1, fun hw => (h.2.2 hw).retains (hl.retains h.2.1.1)⟩
  node_of_target h := h
  target_of_base _ := trivial
  form_of_site h := .of_all id (fun _ => trivial) fun v hv hw => by simp [h hw] at hv
  site_of_entry h := h.1
  pure h _ := ensures_pure ⟨.refl, h⟩
  bind h hf hs := ensures_bind (h hs) fun a t ⟨ht, hV⟩ =>
    (hf t a ht hV (ht.sane hs)).mono fun _ _ ⟨hu, hW⟩ => ⟨ht.trans hu, hW⟩
  get_bind h hs := ensures_get_bind (h hs)
  fail _ _ := ensures_throw nofun
  lift_bind _ hf hs := ensures_lift_bind fun a ha => hf a ha hs
  note _ := (walks_note _).walksFrom Sane.serves
  node _ := (walks_node _).walksFrom Sane.serves
  value _ _ _ := walks_value.walksFrom Sane.serves
  slot := walksFrom_grow fun _ hg => ensures_slot hg
  temporary _ _ := walksFrom_grow fun _ hg => (ensures_temporary hg).mono fun _ _ h => h.1
  fieldRef _ := walksFrom_grow fun _ hg => ensures_fieldRef hg
  element _ := walksFrom_grow fun _ hg => (ensures_element hg).mono fun _ _ h => h.1
  synthetic _ _ _ := walksFrom_grow fun _ hg => ensures_synthetic hg
  boundFunction _ _ _ _ := walksFrom_grow fun _ hg => ensures_boundFunction hg
  flow hk _ _ _ := (walks_flow hk).walksFrom Sane.serves
  address hw _ _ _ := (walks_address hw).walksFrom Sane.serves
  mark hf _ := Walks.walksFrom
    (walks_mapPointer (fun i => by simp only [PointerInfo.calls, hf i]) fun i => (hf i).2.2)
    Sane.serves
  callPointer _ hc _ _ := walks_callPointer.walksFrom fun _ => hc
  select ha hbody hc ho hs := by
    have hserves : State.Serves p ⟨_, some _⟩ _ := ⟨hs, hc.2.1, ha.2.1.2.2⟩
    refine ensures_bind (ensures_summarize (w := w) hserves) ?_
    rintro _ s₁ ⟨h₁, hmem⟩
    refine (ensures_calleeContext (w := w) (hmem hbody) (h₁.serves hserves) fun hw => ⟨?_, ?_⟩).mono
      fun _ _ ⟨h₂, hs₂, _⟩ => ⟨h₁.trans h₂, hs₂⟩
    · exact Option.eq_none_iff_forall_not_mem.2 fun o hmem => ho o hmem hw
    · exact (ha.2.2 hw).retains (h₁.retains hs)
  enter _ hc := walks_enter.walksFrom fun _ => hc
  launch _ _ := Walks.walksFrom
    (.bind walks_addEntry fun _ => walks_onCalls fun _ => CallGraph.addEdge_grows) Sane.serves

end PointsTo

namespace PointsTo.Run
open State

variable {p : Problem} {w : Phase} {s : State} {site : StaticSite} {c : ContextId}
  {object : Option NodeId}

/-- The number of formals that are taken is the one of the object that is called. -/
theorem ensures_bindApplied {callee : MethodId} (hs : s.Sane p) :
    Ensures (bindApplied p object callee c) s fun r s' => s.Steps p w s' ∧
      s'.Applied object r.1 := by
  cases object with
  | none => exact ensures_pure ⟨.refl, rfl⟩
  | some o =>
    refine ensures_node_bind fun a ha => ?_
    split
    · next hnone => exact ensures_pure ⟨.refl, a, ha, by rw [Node.applied, hnone]; rfl⟩
    next binding hbinding =>
    have happlied : s.Applied (some o) binding.offset :=
      ⟨a, ha, by rw [Node.applied, hbinding]; rfl⟩
    refine ensures_get_bind ?_
    split
    · exact ensures_pure ⟨.refl, happlied⟩
    · refine ensures_bind (ensures_bindArguments (w := w) hs) ?_
      rintro _ s₁ ⟨h₁, -⟩
      exact ensures_pure ⟨h₁, happlied.retains (h₁.retains hs)⟩

/-- A callee with a body is connected with its call. -/
theorem ensures_wire (hx : w = .expansion → object = none ∧ s.Stated site.id)
    (hs : s.Serves p ⟨c, site.id⟩) :
    Ensures (wire p site c object) s fun _ s' => s.Steps p w s' ∧
      (p.HasBody site.callee → ∃ c' offset, s'.Wired p site c object c' offset) := by
  refine ensures_lift_bind fun decl hdecl => ?_
  split
  · next hno =>
    refine ensures_pure ⟨.refl, fun ⟨decl', hdecl', hbody⟩ => ?_⟩
    cases Except.ok.inj (hdecl.symm.trans hdecl')
    simp [hbody] at hno
  next hbody =>
  refine ensures_calleeContext_bind (w := w) ⟨decl, hdecl, by simpa using hbody⟩ hs hx
    fun c' s₁ h₁ hs₁ hselected => ?_
  refine ensures_bind (ensures_bindApplied (w := w) hs₁.1) ?_
  rintro ⟨offset, applied⟩ s₂ ⟨h₂, happlied⟩
  have hs₂ := h₂.serves hs₁
  refine ensures_bind (ensures_bindArguments (w := w) hs₂.1) ?_
  rintro args s₃ ⟨h₃, harguments⟩
  have hs₃ := h₃.serves hs₂
  refine ensures_bind (ensures_bindReturns (w := w) hs₃.1) ?_
  rintro results s₄ ⟨h₄, htarget, hreturns⟩
  have hs₄ := h₄.serves hs₃
  refine ensures_bind (ensures_bindReceiver (w := w) hs₄.1) ?_
  rintro receiver s₅ ⟨h₅, hreceiver⟩
  have hs₅ := h₅.serves hs₄
  refine ensures_bind (ensures_enter (w := w) hs₅) ?_
  rintro _ s' ⟨h', hawaits⟩
  -- what was connected first is kept while the rest is
  have hr₅ := h'.retains hs₅.1
  have hr₄ := (h₅.retains hs₄.1).trans hr₅
  have hr₃ := (h₄.retains hs₃.1).trans hr₄
  have hr₂ := (h₃.retains hs₂.1).trans hr₃
  have hr₁ := (h₂.retains hs₁.1).trans hr₂
  refine ensures_pure ⟨(((((h₁.trans h₂).trans h₃).trans h₄).trans h₅).trans h'), fun _ => ?_⟩
  exact ⟨c', offset,
    { selected := hselected.retains hr₁
      applied := happlied.retains hr₂
      arguments := fun args formals ha hf => (harguments args formals ha hf).retains hr₃
      target := fun target ht => (htarget target ht).retains hr₄
      returns := fun target v ht hv => (hreturns target v ht hv).retains hr₄
      self := fun decl hd hstatic => by
        obtain ⟨v, y, hv, hy, -⟩ := hreceiver decl hd hstatic
        exact ⟨v, hv, y, hr₅.nodeOf _ _ _ hy⟩
      receiver := fun ho base decl hb hd hstatic => by
        obtain ⟨v, y, hv, hy, hequips⟩ := hreceiver decl hd hstatic
        obtain ⟨x, hx, hedge⟩ := hequips.base ho base hb
        exact ⟨v, hv, Flows.retains ⟨x, y, hx, hy, .self, rfl, hedge⟩ hr₅⟩
      given := fun o ho hf decl hd hstatic => by
        obtain ⟨v, y, hv, hy, hequips⟩ := hreceiver decl hd hstatic
        have ho := (hequips.given o ho).resolve_left fun h => hf (hr₅.graph.isFunction h)
        exact Receives.retains ⟨v, y, hv, hy, ho⟩ hr₅
      bound := fun x decl hx hd hstatic => by
        obtain ⟨v, y, hv, hy, hequips⟩ := hreceiver decl hd hstatic
        have happlied₄ := happlied.retains ((h₃.retains hs₂.1).trans (h₄.retains hs₃.1))
        have hedge := hequips.bound x (hx.of_retains hr₄ happlied₄.lt_size)
        exact ⟨v, hv, Flows.retains ⟨x, y, rfl, hy, hedge⟩ hr₅⟩
      awaited := hawaits }⟩

/-- A call is made of steps; without a target it gives no object to a node. A callee with a body
is connected with its call, unless a model takes over. -/
theorem ensures_call (hw : w = .quiet → site.target = none)
    (hx : w = .expansion → object = none ∧ s.Stated site.id) (hs : s.Serves p ⟨c, site.id⟩) :
    Ensures (call p site c object) s fun _ s' => s.Steps p w s' ∧
      (p.HasBody site.callee → s.Modelled p site object ∨
        ∃ c' offset, s'.Wired p site c object c' offset) := by
  have hentry : (Regime.walking p w).Entry s site :=
    ⟨hw, ⟨hs.1, hs.1.contexts.has_empty, hs.2.2⟩, fun h => (hx h).2⟩
  have hform : (Regime.walking p w).Form s site := (Regime.walking p w).form_of_site hentry.1
  refine ensures_bind (Model.keeps_find? hform (fun _ _ => trivial) hs.1).runs ?_
  rintro model? s₁ ⟨⟨h₁, -⟩, hfind⟩
  have hs₁ := h₁.serves hs
  cases model? with
  | some m =>
    have hkeeps := Model.keeps_handle (m := m) ((Regime.walking p w).entry_later h₁ hentry)
      ⟨hs₁.1, hs₁.2.1, nofun⟩ fun o ho hw => Option.some_ne_none o (ho.symm.trans (hx hw).1)
    exact (hkeeps hs₁.1).mono fun _ s' ⟨h', _⟩ => ⟨h₁.trans h', fun _ => .inl ⟨m, s₁, hfind⟩⟩
  | none =>
    have hx₁ : w = .expansion → object = none ∧ s₁.Stated site.id := fun h =>
      (hx h).imp_right fun hstated => hstated.retains (h₁.retains hs.1)
    exact (ensures_wire (w := w) hx₁ hs₁).mono fun _ s' ⟨h', hwired⟩ =>
      ⟨h₁.trans h', fun hbody => .inr (hwired hbody)⟩

theorem walks_call (hw : w = .quiet → site.target = none) (hx : w ≠ .expansion) :
    Walks p w ⟨c, site.id⟩ (call p site c object) :=
  fun _ hs => (ensures_call hw (absurd · hx) hs).mono fun _ _ h => h.1

end PointsTo.Run
