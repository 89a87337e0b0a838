import PointsTo.Proofs.Analysis.Positions
import PointsTo.Proofs.Regime.Calls

/-! Calls take nothing away, whatever the model of the callee does, and pass on objects only. On
objects that exist they come upon nothing that does not. -/
namespace PointsTo
open State

variable {p : Problem} {w : Watch} {s : State}

theorem StaticSite.Refs.form {a : StaticSite} {T : Traits p.scene} (h : a.Refs (p.Sees w s))
    (hstrict : T.Strict → w.Strict ∧ p.scene.WellFormed)
    (hvalue : ∀ v, p.Sees w s .value v → T.Known v) (hnode : ∀ n, p.Sees w s .node n → T.Node s n)
    (hanswers : T.Answers) : T.Form s a := by
  refine ⟨fun l hl x hx => ?_, fun h' => h.mono fun _ _ hr => ?_, fun _ _ => hanswers⟩
  · have hx := h.args l hl x hx
    cases x with
    | value v => exact hvalue v hx
    | node n => exact hnode n hx
  · exact (hstrict h').2.knows (hr (hstrict h').1)

/-- Nothing is taken away, the targets of calls are objects, and whatever comes up exists if it has
to. -/
def Regime.watch (p : Problem) (w : Watch) : Regime p where
  Strict := w.Strict ∧ p.scene.WellFormed
  Answers := True
  Node s n := p.Sees w s .node n
  Target s n := s.graph.IsObject n ∧ p.Sees w s .node n
  Base s n := s.graph.IsObject n ∧ p.Sees w s .node n
  Context s c := p.Sees w s .context c
  Site s a := a.Refs (p.Sees w s)
  Entry s a := a.Refs (p.Sees w s)
  wellFormed h := h.2
  Keeps s m V := (State.watch p w).Safe s m V
  Later s t := (State.watch p w).Later s t
  node_later hl h := sees_later hl h
  target_later hl h := ⟨hl.1.isObject h.1, sees_later hl h.2⟩
  base_later hl h := ⟨hl.1.isObject h.1, sees_later hl h.2⟩
  context_later hl h := sees_later hl h
  site_later hl h := h.mono fun _ _ => sees_later hl
  entry_later hl h := h.mono fun _ _ => sees_later hl
  node_of_target h := h.2
  target_of_base h := h
  form_of_site h := h.form id (fun _ hv h => hv h.1 h.2) (fun _ h => h) trivial
  site_of_entry h := h
  pure h := .pure h
  bind h hf := .bind h hf
  get_bind h := .get_bind h
  fail := Run.watch_fail
  lift_bind hx hf := by
    refine Run.watch_lift_bind (Q := fun _ => True) (fun h hp => ?_) fun a ha _ => hf a ha
    obtain ⟨a, ha⟩ := hx ⟨h, hp⟩
    exact ⟨a, ha, trivial⟩
  note hn := (Run.watch_note hn).runs
  node {_ n} hn := by
    rw [← bind_pure (Run.node n)]
    exact Run.watch_node_bind hn fun _ _ _ => .pure trivial
  value hc hv hstmt := (Run.watch_value hc (fun h hp => hv ⟨h, hp⟩)
    fun i hi h hp => hstmt i hi ⟨h, hp⟩).mono fun _ _ _ _ h => h.2
  slot := Run.watch_grow_node Growing.watch_slot
  temporary hc hi := Run.watch_grow_node (Growing.watch_temporary hc fun h hp => hi ⟨h, hp⟩)
  fieldRef hn := Run.watch_grow_node (Growing.watch_fieldRef hn)
  element ho := Run.watch_grow_node (Growing.watch_element ho.2)
  synthetic := by
    rintro s a c owner object hobject ha hc
    refine Run.watch_grow_object (Growing.watch_synthetic (fun i hi => ?_) hc fun h => ?_)
    · rcases hobject with rfl | ⟨rfl, rfl⟩
      · cases hi
      · rfl
    · rcases hobject with rfl | ⟨rfl, -⟩ <;> exact ha.id h
  boundFunction ha hc hf hreceiver := Run.watch_grow_object
    (Growing.watch_boundFunction hf.2 ha.callee ha.id hc hreceiver)
  flow hkind ha hb hstmt := Run.watch_flow hkind ha hb fun i hi h hp => hstmt i hi ⟨h, hp⟩
  address _ ho hb hstmt := Run.watch_address ho.1 ho.2 hb fun i hi h hp => hstmt i hi ⟨h, hp⟩
  mark hf _ := (Run.watch_mapPointer (fun i => by
    obtain ⟨h₁, h₂, h₃⟩ := hf i
    rw [h₁, h₂, h₃]
    exact ⟨List.Subset.refl _, List.Subset.refl _, List.Subset.refl _⟩) fun _ i hi => by
    obtain ⟨h₁, h₂, h₃⟩ := hf i
    exact ⟨h₁ ▸ hi.dynamicCalls, h₂ ▸ hi.unknownCalls, h₃ ▸ hi.instanceCalls⟩).runs
  callPointer ha hc hn hargs := Run.watch_callPointer ha hc hn fun x hx => by
    have hx := hargs x hx
    cases x with
    | value v => exact fun h hp => hx ⟨h, hp⟩
    | node n => exact hx
  select ha _ hc ho := .next (Run.watch_summarize ha.callee) fun _ _ hl =>
    Run.watch_calleeContext (sees_later hl ha.id) (sees_later hl hc)
      (fun o hmem => sees_later hl (ho o hmem).2) ha.callee
  enter ha hc := Run.watch_enter ha.callee hc
  launch ha hm := .next (Run.watch_addEntry fun h hp => hm ⟨h, hp⟩) fun _ _ hl =>
    Run.watch_callEdge (sees_later hl ha.id) ha.caller fun h hp => hm ⟨h, hp⟩

namespace Run

variable {c : ContextId} {object : NodeId}

theorem watch_connects : (Regime.watch p w).Connects where
  object {_ n} hn := by
    rw [← bind_pure (node n)]
    refine watch_node_bind hn fun a _ ha => .of_holds fun hs => .pure ⟨?_, ?_, ?_⟩
    · exact fun f hf n hn h => ((ha h).function? f hf).receiver n hn
    · exact fun f hf b hb h => (((ha h).function? f hf).binding b hb).2
    · refine fun f _ b _ site hsite => StaticSite.Refs.form (w := w) (.when fun h => ?_) id
        (fun _ hv h => hv h.1 h.2) (fun _ h => h) trivial
      exact (hs.2 h).calls.sites.static? hsite
  update hn ho := watch_update hn ho.1 ho.2

/-- A call that exists, on no object or on one that exists. -/
theorem watch_call {site : StaticSite} {object : Option NodeId} (hsite : site.Refs (p.Sees w s))
    (hc : p.Sees w s .context c) (ho : ∀ o ∈ object, s.graph.IsObject o ∧ p.Sees w s .node o) :
    (watch p w).Runs s (call p site c object) :=
  watch_connects.call hsite hc ho

section Callees

variable {site : DynamicSite}

theorem watch_callbackOf {x : CallArg} (hx : x.Refs (p.Sees w s)) :
    (watch p w).Safe s (callbackOf p x) fun _ m? => ∀ m ∈ m?, p.Sees w s .method m := by
  cases x with
  | node n => exact .pure nofun
  | value v =>
    refine watch_lift_bind (fun h hp => hp.value (hx h hp)) fun value _ hvalue => ?_
    split
    · refine .pure ?_
      rintro _ ⟨⟩ h hp
      exact (hvalue h hp).target _ rfl
    · refine watch_lift_bind (fun h hp => hp.valueType (hx h hp)) fun type _ _ => ?_
      split
      · exact .pure fun m hm _ hp => hp.methodOf? hm
      · exact .pure nofun

theorem watch_classCallee {owner : Option String} {name : String} :
    (watch p w).Safe s (classCallee p owner name) fun _ m? => ∀ m ∈ m?, p.Sees w s .method m := by
  unfold classCallee
  split
  · next c hc =>
    obtain ⟨name, -, hc⟩ := Option.bind_eq_some_iff.1 hc
    refine (watch_scan fun _ _ => Scene.safe_dispatch fun h => h.classNamed? hc).mono ?_
    exact fun _ m? _ _ hm? m hm h hp => hm? h hp m hm
  · exact .pure nofun

theorem watch_calleesByClass {owner : Option String} (hsite : site.Refs (p.Sees w s)) :
    (watch p w).Safe s (calleesByClass p site owner) fun _ ms =>
      ∀ m ∈ ms, p.Sees w s .method m := by
  refine .bind watch_classCallee fun t m? hl hm? => ?_
  cases m? with
  | some m => exact .pure (List.forall_mem_singleton.2 (hm? m rfl))
  | none =>
    dsimp only
    split
    · next m hm => exact .pure (List.forall_mem_singleton.2 (hsite.prototype m hm))
    split
    · exact .pure nofun
    refine .bind (.mapM (V := fun _ m? => ∀ m ∈ m?, p.Sees w s .method m) (fun _ h => h)
      fun u x hl' hx => ?_) fun u ms _ hms => .pure fun m hm => ?_
    · refine watch_callbackOf (CallArg.Refs.mono (fun _ _ => sees_later ((watch p w).trans hl hl')) ?_)
      cases hargs : site.args with
      | none => simp [hargs] at hx
      | some args => exact hsite.args args hargs x (by simpa [hargs] using hx)
    · obtain ⟨m?, hm?, rfl⟩ := List.mem_filterMap.1 hm
      exact hms _ hm? m rfl

theorem watch_callees (hsite : site.Refs (p.Sees w s)) (ho : p.Sees w s .node object) :
    (watch p w).Safe s (callees p site object) fun _ ms => ∀ m ∈ ms, p.Sees w s .method m := by
  refine watch_node_bind ho fun a _ ha => ?_
  split
  · next f hf =>
    split
    · exact .pure (List.forall_mem_singleton.2 fun h => ((ha h).function? f hf).method)
    · exact watch_calleesByClass hsite
  · exact watch_calleesByClass hsite

variable (hsite : site.Refs (p.Sees w s)) (hc : p.Sees w s .context c)
include hsite hc

theorem watch_callOn {binds : Bool} {callee : MethodId} (ho : s.graph.IsObject object)
    (ho' : p.Sees w s .node object) (hm : p.Sees w s .method callee) :
    (watch p w).Runs s (callOn p site c object binds callee) := by
  refine .bind (watch_onCalls (V := fun g (i? : Option SiteId) => ∀ i ∈ i?,
    i.index < g.sites.sites.size) (CallGraph.extends_sites SiteTable.resolve_grows s.calls.stmtSites)
    fun h hcalls => ?_) fun s₁ i? hl hi => ?_
  · have hresolve := SiteTable.InRange.resolve (i := site.id) hcalls.sites (hm h)
    exact ⟨hcalls.onSites SiteTable.widens_resolve hresolve.1, SiteTable.widens_resolve, hresolve.2⟩
  cases i? with
  | none => exact .pure trivial
  | some i =>
    refine .get_bind ?_
    extract_lets recursive finish
    have hfinish : ∀ t : State, (watch p w).Later s t → (watch p w).Runs t (finish ()) := by
      intro t hl
      dsimp only [finish]
      split
      · exact .pure trivial
      refine .get_bind (.of_holds fun ht => ?_)
      split
      · next resolved hresolved =>
        refine watch_call (.when fun h => (ht.2 h).calls.sites.static? hresolved)
          (sees_later hl hc) ?_
        rintro _ ⟨⟩
        exact ⟨hl.1.isObject ho, sees_later hl ho'⟩
      · exact .pure trivial
    split
    · refine .next (.discard (watch_callEdge (fun h => hi.2 h i rfl) hsite.caller hm))
        fun t _ hl' => ?_
      exact hfinish t ((watch p w).trans hl hl')
    · exact hfinish s₁ hl

theorem watch_callAll {ms : List MethodId} (ho : s.graph.IsObject object)
    (ho' : p.Sees w s .node object) (hms : ∀ m ∈ ms, p.Sees w s .method m) :
    (watch p w).Runs s (callAll p site c object ms) := by
  refine watch_node_bind ho' fun a _ _ => ?_
  refine .last (.mapM (V := fun _ _ => True) (fun _ h => h) fun t m hl hm => ?_)
  exact watch_callOn (hsite.mono fun _ _ => sees_later hl) (sees_later hl hc) (hl.1.isObject ho)
    (sees_later hl ho') (hms m hm)

/-- Functions are objects. -/
theorem watch_callThroughField (ho : p.Sees w s .node object) :
    (watch p w).Runs s (callThroughField p site c object) := by
  unfold callThroughField
  split
  · exact .pure trivial
  refine watch_node_bind ho fun a _ _ => ?_
  split
  · exact .pure trivial
  refine .bind (watch_grow_node (Growing.watch_objectField ho)) fun s₁ field hl _ => ?_
  refine .get_bind (.of_holds fun hs₁ => ?_)
  refine .last (.mapM (V := fun _ _ => True) (fun _ h => h) fun t function hl' hf => ?_)
  have hfunction : p.Sees w t .node function := sees_later hl' fun h =>
    (hs₁.2 h).points.get field function (Collection.mem_enumerate.1 hf)
  have hl := (watch p w).trans hl hl'
  refine watch_node_bind hfunction fun b hb hrefs => ?_
  split
  · exact .pure trivial
  · next f hf =>
    have hobject : t.graph.IsObject function := ⟨b, hb, Node.isObject_of_function? hf⟩
    refine .get_bind ?_
    split
    · exact .pure trivial
    refine .next (watch_modify .record rfl rfl fun h ht =>
      { ht with fieldDispatched := forall_mem_insert ht.fieldDispatched ?_ }) fun u _ hl'' => ?_
    · exact ⟨sees_later hl hsite.id h, sees_later hl hc h, hfunction h⟩
    · have hl := (watch p w).trans hl hl''
      refine watch_callAll (hsite.mono fun _ _ => sees_later hl) (sees_later hl hc)
        (hl''.1.isObject hobject) (sees_later hl'' hfunction) ?_
      exact List.forall_mem_singleton.2 fun h => ((hrefs h).function? f hf).method

end Callees

section Dispatch

variable {i : SiteId}

theorem watch_claim {d : Dispatch} (hd : Dispatch.Refs (p.Sees w s) d) :
    (watch p w).Runs s (claim d) :=
  .modifyGet fun hs => watch_record hs (.claim d) rfl rfl fun h hs =>
    { hs with resolved := forall_mem_insert hs.resolved (hd.mono fun _ _ hr => hr h) }

theorem watch_postpone {d : Dispatch} (hd : Dispatch.Refs (p.Sees w s) d) :
    (watch p w).Runs s (postpone d) :=
  (watch_modify .record rfl rfl fun h hs =>
    have hd := hd.mono fun _ _ hr => hr h
    { hs with unresolved := Array.forall_mem_push.2 ⟨hd, hs.unresolved⟩ }).runs

variable (ho : s.graph.IsObject object) (hd : Dispatch.Refs (p.Sees w s) (i, c, object))
include hd

theorem watch_dispatchWith {rule : DynamicSite → Run (List NodeId)}
    (hrule : ∀ t site, (watch p w).Later s t → site.Refs (p.Sees w t) →
      (watch p w).Runs t (rule site)) :
    (watch p w).Runs s (dispatchWith i c object rule) := by
  refine .next (watch_claim hd) fun t first hl => ?_
  split
  · exact .pure trivial
  refine .get_bind (.of_holds fun ht => ?_)
  split
  · exact .pure trivial
  · next site hsite => exact hrule t site hl (.when fun h => (ht.2 h).calls.sites.dynamic? hsite)

include ho

theorem watch_dispatch : (watch p w).Runs s (dispatch p i c object) := by
  refine watch_dispatchWith hd fun t site hl hsite => ?_
  have hd := hd.mono fun _ _ => sees_later hl
  refine .bind (watch_callees hsite hd.2.2) fun u found hl' hfound => ?_
  have hd := hd.mono fun _ _ => sees_later hl'
  split
  · exact .last (watch_postpone hd)
  · exact watch_callAll (hsite.mono fun _ _ => sees_later hl') hd.2.1
      (((watch p w).trans hl hl').1.isObject ho) hd.2.2 hfound

theorem watch_dispatchUnknown : (watch p w).Runs s (dispatchUnknown p i c object) := by
  refine watch_dispatchWith hd fun t site hl hsite => ?_
  have hd := hd.mono fun _ _ => sees_later hl
  refine .bind (watch_callees hsite hd.2.2) fun u found hl' hfound => ?_
  have hd := hd.mono fun _ _ => sees_later hl'
  have hsite := hsite.mono fun _ _ => sees_later hl'
  split
  · refine .next (watch_postpone hd) fun _ _ hl'' => ?_
    exact watch_callThroughField (hsite.mono fun _ _ => sees_later hl'') (sees_later hl'' hd.2.1)
      (sees_later hl'' hd.2.2)
  · exact watch_callAll hsite hd.2.1 (((watch p w).trans hl hl').1.isObject ho) hd.2.2 hfound

theorem watch_dispatchInstance : (watch p w).Runs s (dispatchInstance p i c object) := by
  refine .next (watch_claim hd) fun t first hl => ?_
  split
  · exact .pure trivial
  refine .get_bind (.of_holds fun ht => ?_)
  split
  · exact .pure trivial
  · next site hsite =>
    refine watch_call (.when fun h => (ht.2 h).calls.sites.static? hsite) (sees_later hl hd.2.1) ?_
    rintro _ ⟨⟩
    exact ⟨hl.1.isObject ho, sees_later hl hd.2.2⟩

omit ho hd

/-- What is not an object is passed over. -/
theorem watch_serve {info : PointerInfo} (hinfo : w.Strict → info.Refs (p.Within s))
    (ho' : p.Sees w s .node object) : (watch p w).Runs s (serve p info object) := by
  refine watch_node_bind ho' fun a ha _ => ?_
  split
  · exact .pure trivial
  next hobject =>
  have ho : s.graph.IsObject object := ⟨a, ha, by simpa using hobject⟩
  -- each of the three lists of calls is worked off for the object
  have hcalls : ∀ (t : State) (ds : List (SiteId × ContextId))
      (rule : SiteId → ContextId → NodeId → Run (List NodeId)), (watch p w).Later s t →
      (w.Strict → ∀ d ∈ ds, p.Within s .site d.1 ∧ p.Within s .context d.2) →
      (∀ {u i c}, u.graph.IsObject object → Dispatch.Refs (p.Sees w u) (i, c, object) →
        (watch p w).Runs u (rule i c object)) →
      (watch p w).Runs t (ds.mapM fun d => rule d.1 d.2 object) := by
    intro t ds rule hl hds hrule
    refine Guard.Safe.runs (.mapM (V := fun _ _ => True) (fun _ h => h) fun u d hl' hd => ?_)
    have hl := (watch p w).trans hl hl'
    exact hrule (hl.1.isObject ho) ⟨sees_later hl fun h => (hds h d hd).1,
      sees_later hl fun h => (hds h d hd).2, sees_later hl ho'⟩
  refine .next (hcalls s _ _ ((watch p w).refl s) (fun h => (hinfo h).dynamicCalls)
    watch_dispatch) fun s₁ _ hl₁ => ?_
  refine .next (hcalls s₁ _ _ hl₁ (fun h => (hinfo h).unknownCalls) watch_dispatchUnknown)
    fun s₂ _ hl₂ => ?_
  exact .last (hcalls s₂ _ _ ((watch p w).trans hl₁ hl₂) (fun h => (hinfo h).instanceCalls)
    watch_dispatchInstance)

theorem watch_receive {n : NodeId} {objects : List NodeId} (hn : p.Sees w s .node n)
    (hobjects : ∀ o ∈ objects, p.Sees w s .node o) :
    (watch p w).Runs s (receive p n objects) := by
  refine watch_node_bind hn fun a _ ha => ?_
  split
  · exact .pure trivial
  · next info hinfo =>
    refine .last (.mapM (V := fun _ _ => True) (fun _ h => h) fun t o hl ho => watch_serve
      (fun h => ?_) (sees_later hl (hobjects o ho)))
    exact ((ha h).pointer? info hinfo).mono fun _ _ => within_later (hl.2 h)

theorem watch_retry : (watch p w).Runs s (retry p) := by
  refine .get_bind (.of_holds fun hs => ?_)
  refine .last (.mapM (V := fun _ _ => True) (fun _ h => h) fun t d hl hd => ?_)
  have hd := fun h => (hs.2 h).unresolved d (Array.mem_toList_iff.1 hd)
  refine .get_bind (.of_holds fun ht => ?_)
  split
  · exact .pure trivial
  · next site hsite =>
    exact watch_callThroughField (.when fun h => (ht.2 h).calls.sites.dynamic? hsite)
      (sees_later hl fun h => (hd h).2.1) (sees_later hl fun h => (hd h).2.2)

end Dispatch

end Run

end PointsTo
