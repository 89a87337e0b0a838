import PointsTo.Proofs.Analysis.Issued

/-! Who makes calls. Every call site belongs to a method with a body, and so does every edge of the
call graph. What a model calls on behalf of a site has been asked for by a call of that site. -/
namespace PointsTo
open FlowGraph

namespace State

variable {p : Problem} {s t u : State} {i : SiteId}

/-- The tables that calls are kept in are in order, and methods with a body make the calls. -/
structure Filed (p : Problem) (s : State) : Prop where
  graph : s.graph.Consistent p.scene
  coherent : s.calls.Coherent
  listed : s.calls.Listed p.scene
  sites : ∀ i x, s.calls.sites.get? i = some x → p.HasBody x.caller
  edges : ∀ i m m', s.calls.Joins i m m' → p.HasBody m

/-- Nothing is called on behalf of a site. -/
structure Enrolls (p : Problem) (s t : State) : Prop where
  filed : s.Filed p → t.Filed p
  synthetic : t.synthetic = s.synthetic

/-- New calls that models make up are on behalf of the site `i`. -/
structure Accrues (p : Problem) (i : SiteId) (s t : State) : Prop where
  filed : t.Filed p
  synthetic : ∀ r ∈ t.synthetic, r ∈ s.synthetic ∨ r.1.1 = i

theorem Accrues.trans (h : s.Accrues p i t) (h' : t.Accrues p i u) : s.Accrues p i u where
  filed := h'.filed
  synthetic r hr := (h'.synthetic r hr).elim (h.synthetic r) .inr

theorem Enrolls.accrues (h : s.Enrolls p t) (hs : s.Filed p) : s.Accrues p i t where
  filed := h.filed hs
  synthetic _ hr := .inl (h.synthetic ▸ hr)

theorem Calm.enrolls (h : s.Calm p.scene t) : s.Enrolls p t where
  filed hs := {
    graph := h.graph hs.graph
    coherent := h.calls ▸ hs.coherent
    listed := h.calls ▸ hs.listed
    sites := h.calls ▸ hs.sites
    edges := h.calls ▸ hs.edges }
  synthetic := h.synthetic

instance : Std.Refl (Enrolls p) := ⟨fun s => Calm.enrolls (Std.Refl.refl s)⟩

instance : Trans (Enrolls p) (Enrolls p) (Enrolls p) where
  trans h h' := ⟨h'.filed ∘ h.filed, h'.synthetic.trans h.synthetic⟩

instance : Preserves (Filed p) (Enrolls p) := ⟨fun _ _ h => h.filed⟩

/-- More call sites change nothing, as long as methods with a body have them. -/
theorem Filed.withSites (hs : s.Filed p) {sites : SiteTable} (hgrows : s.calls.sites.Grows sites)
    (hsites : ∀ i x, sites.get? i = some x → s.calls.sites.get? i = some x ∨ p.HasBody x.caller) :
    Filed p { s with calls := { s.calls with sites } } where
  graph := hs.graph
  coherent := hs.coherent.sites _ _
  listed := (CallGraph.grows_sites hgrows).listed hs.listed
  sites i x hx := (hsites i x hx).elim (hs.sites i x) id
  edges := hs.edges

theorem Filed.addEdge (hs : s.Filed p) {caller callee : MethodId} {type : CallType}
    (hcaller : p.HasBody caller) :
    Filed p { s with calls := (s.calls.addEdge i caller callee type).2 } := by
  have hgrows : s.calls.Grows p.scene (s.calls.addEdge i caller callee type).2 :=
    CallGraph.addEdge_grows
  refine ⟨hs.graph, hs.coherent.addEdge, hgrows.listed hs.listed, fun j x hx => ?_,
    fun j m m' hj => ?_⟩
  · exact hs.sites j x (CallGraph.sites_addEdge ▸ hx)
  · rcases CallGraph.joins_addEdge hs.coherent hj with hold | ⟨-, rfl, -⟩
    · exact hs.edges j m m' hold
    · exact hcaller

theorem Filed.hasBody_caller (hs : s.Filed p) {site : DynamicSite}
    (hsite : s.calls.sites.dynamic? i = some site) : p.HasBody site.caller :=
  hs.sites i _ (SiteTable.dynamic?_eq_some.1 hsite)

/-- A method without a body makes no calls. -/
theorem Filed.not_reaches (hs : s.Filed p) {m m' : MethodId} (hm : ¬ p.HasBody m)
    (hm' : p.HasBody m') : s.calls.reaches m m' = false := by
  refine Bool.eq_false_iff.2 fun hreaches => ?_
  rcases hs.coherent.joins_of_reaches hreaches with rfl | ⟨i, b, hj⟩
  · exact hm hm'
  · exact hm (hs.edges i m b hj)

end State

namespace Run
open State

variable {p : Problem} {s t : State} {m : MethodId} {c : ContextId} {a : StaticSite}

section Enrolls

theorem enrolls_reach : Follows (Filed p) (Enrolls p) (reach p m) := by
  intro s _
  refine ensures_lift_bind fun decl _ => ensures_discard (ensures_modifyGet ⟨fun hs => ?_, rfl⟩)
  have hgrows : s.calls.Grows p.scene (s.calls.addNode m decl.kind).2 := CallGraph.addNode_grows
  refine ⟨hs.graph, hs.coherent.addNode, hgrows.listed hs.listed, fun i x hx => ?_,
    fun i m m' hj => ?_⟩
  · exact hs.sites i x (CallGraph.sites_addNode ▸ hx)
  · have hold := hj.of_edges hs.coherent hs.coherent.addNode hgrows CallGraph.edges_addNode
    exact hs.edges i m m' hold

theorem enrolls_schedule : Follows (Filed p) (Enrolls p) (schedule m c) :=
  .modify fun s _ => Calm.enrolls (by split <;> exact ⟨rfl, rfl, id⟩)

theorem enrolls_addEntry : Follows (Filed p) (Enrolls p) (addEntry p m) := by
  refine .bind (.modifyGet fun s _ => Calm.enrolls ⟨rfl, rfl, id⟩) fun c => ?_
  refine .bind enrolls_reach fun _ => .bind (.modify fun s _ => ?_) fun _ => enrolls_schedule
  exact Calm.enrolls (by split <;> exact ⟨rfl, rfl, id⟩)

theorem enrolls_enter : Follows (Filed p) (Enrolls p) (enter p m c) :=
  .bind enrolls_reach fun _ => enrolls_schedule

theorem enrolls_lift {α : Type} (x : Except Fault α) :
    Follows (Filed p) (Enrolls p) (liftM x : Run α) :=
  fun s hs => (stays_lift x s hs.graph).mono fun _ _ h => h.calm.enrolls

/-- The sites that a survey finds belong to the method. -/
theorem enrolls_survey (hbody : p.HasBody m) : Follows (Filed p) (Enrolls p) (survey p m) := by
  intro s hs
  refine (ensures_survey hs.listed).mono ?_
  rintro captures _ ⟨v, -, -, hgrows, hframe, hown, rfl⟩
  refine ⟨fun hs => ⟨hs.graph, ?_, hgrows.listed hs.listed, fun i x hx => ?_,
    fun i m m' hj => ?_⟩, rfl⟩
  · rw [hframe]
    exact hs.coherent.sites _ _
  · rcases hown i x hx with hold | hcaller
    · exact hs.sites i x hold
    · exact hcaller ▸ hbody
  · rw [hframe] at hj
    exact hs.edges i m m' hj

theorem enrolls_summarize : Follows (Filed p) (Enrolls p) (summarize p m) := by
  refine .bind .get fun s₀ => ?_
  split
  · exact .pure false
  intro s hs
  refine ensures_lift_bind fun decl hdecl => ?_
  split
  · exact Follows.bind (enrolls_lift _) (fun _ => .pure _) s hs
  next hbody =>
  have hbody : p.HasBody m := ⟨decl, hdecl, by simpa using hbody⟩
  refine Follows.bind (enrolls_survey hbody) (fun captures => ?_) s hs
  split
  · refine .bind (.forM fun owner _ => .bind .get fun s => ?_) fun _ => ?_
    · split
      · exact enrolls_addEntry
      · exact .pure ()
    · exact .bind (.modify fun s _ => Calm.enrolls ⟨rfl, rfl, id⟩) fun _ => .pure true
  · exact .pure true

end Enrolls

section Accrues

theorem accrues_callPointer {pointer : NodeId} {args : List CallArg} (hs : s.Filed p)
    (hcaller : p.HasBody a.caller) :
    Ensures (callPointer a c pointer args) s fun _ t => s.Accrues p a.id t := by
  refine ensures_get_bind ?_
  split
  · exact ensures_pure ((Calm.enrolls (Std.Refl.refl s)).accrues hs)
  refine ensures_bind (Q := fun _ s₁ => s.Accrues p a.id s₁)
    (ensures_modifyGet ⟨hs.withSites SiteTable.addDynamic_grows fun i x hx => ?_, fun _ => .inl⟩)
    fun i s₁ h₁ => ?_
  · rcases SiteTable.get?_push.1 hx with hold | ⟨-, rfl⟩
    · exact .inl hold
    · exact .inr hcaller
  refine ensures_bind (Q := fun _ s₂ => s.Accrues p a.id s₂)
    (ensures_modify ⟨{ h₁.filed with }, ?_⟩) fun _ s₂ h₂ => ?_
  · intro r hr
    rcases List.mem_cons.1 hr with rfl | hr
    · exact .inr rfl
    · exact h₁.synthetic r hr
  have hcalm : ∀ {α : Type} {m : Run α}, Calms p.scene m →
      Ensures m s₂ fun _ t => s.Accrues p a.id t := fun {_ _} hm =>
    (hm s₂ h₂.filed.graph).mono fun _ _ h => h₂.trans (h.enrolls.accrues h₂.filed)
  refine hcalm (.bind (calms_of_stays (stays_node _)) fun b => ?_)
  split
  · rw [← bind_assoc]
    exact .bind calms_attach fun _ => .pure _
  · exact .bind (calms_of_stays stays_note) fun _ => .pure none

/-- What a call of the site `a` adds to the tables. -/
def accruing (p : Problem) (a : StaticSite) (hcaller : p.HasBody a.caller) : Ledger p where
  Holds s := s.Filed p
  Later s t := s.Accrues p a.id t
  Site _ b := b = a
  Entry _ b := b = a
  graph hs := hs.graph
  holds h := h.filed
  trans h h' := h.trans h'
  still hs h := h.calm.enrolls.accrues hs
  site_later _ h := h
  entry_later _ h := h
  site_of_entry h := h
  callPointer hs h := h ▸ accrues_callPointer hs (h ▸ hcaller)
  summarize hs _ _ := (enrolls_summarize _ hs).mono fun _ _ h => h.accrues hs
  enter hs _ := (enrolls_enter _ hs).mono fun _ _ h => h.accrues hs
  launch hs h := ensures_bind (enrolls_addEntry _ hs) fun _ _ h₁ =>
    ensures_modifyGet ⟨(h₁.filed hs).addEdge (h ▸ hcaller), fun _ hr => .inl (h₁.synthetic ▸ hr)⟩

theorem accrues_call {object : Option NodeId} {new : List NodeId} (hs : s.Filed p)
    (hcaller : p.HasBody a.caller) (h : call p a c object s = .ok new t) : s.Accrues p a.id t :=
  (accruing p a hcaller).call hs rfl h

end Accrues

end Run

namespace State

variable {p : Problem} {s t : State} {site : StaticSite} {c : ContextId} {object : Option NodeId}

theorem Places.accrues (h : s.Places p site c object t) (hs : s.Filed p) :
    s.Accrues p site.id t := by
  obtain ⟨new, hrun⟩ := h.run
  exact Run.accrues_call hs (hs.sites _ _ (SiteTable.static?_eq_some.1 h.filed)) hrun

/-- Only a call of a site makes up further calls. -/
theorem Act.enrolls_or_places (h : s.Act p t) (hs : s.Sane p) (hfiled : s.Filed p) :
    s.Enrolls p t ∨ ∃ site c object, s.Places p site c object t := by
  have hgraph : t.graph.Consistent p.scene := ((h.leadsTo hs).sane hs).graph
  cases h with
  | still _ hcalls hsynthetic => exact .inl (Calm.enrolls ⟨hcalls, hsynthetic, fun _ => hgraph⟩)
  | call h => exact .inr ⟨_, _, _, h⟩
  | survey h => exact .inl ((Run.enrolls_summarize s hfiled).1 h)
  | entry h => exact .inl ((Run.enrolls_addEntry s hfiled).1 h)
  | reach h => exact .inl ((Run.enrolls_reach s hfiled).1 h)
  | resolve i m =>
    refine .inl ⟨fun hfiled => hfiled.withSites SiteTable.resolve_grows fun j x hx => ?_, rfl⟩
    rcases SiteTable.get?_resolve hx with hold | ⟨site, hsite, rfl⟩
    · exact .inl hold
    · exact .inr (hfiled.hasBody_caller hsite)
  | join callee type hsite hcaller =>
    exact .inl ⟨fun hfiled => hfiled.addEdge (hcaller ▸ hfiled.sites _ _ hsite), rfl⟩
  | solution h =>
    refine .inl (Calm.enrolls ⟨?_, ?_, fun _ => hgraph⟩)
    · rw [h.rest]
    · rw [h.rest]
  | round => exact .inl (Calm.enrolls ⟨rfl, rfl, id⟩)

theorem Act.filed (h : s.Act p t) (hs : s.Sane p) (hfiled : s.Filed p) : t.Filed p := by
  rcases h.enrolls_or_places hs hfiled with h | ⟨_, _, _, h⟩
  · exact h.filed hfiled
  · exact (h.accrues hfiled).filed

theorem filed_initial (p : Problem) : (initial p.settings).Filed p where
  graph := (between_initial p).graph
  coherent := CallGraph.coherent_empty
  listed := (between_initial p).recorded.listed
  sites := by simp [initial, SiteTable.get?]
  edges := by simp [initial, CallGraph.Joins]

theorem History.filed (h : (initial p.settings).History p s) : s.Filed p := by
  induction h with
  | refl => exact filed_initial p
  | tail hs h ih => exact h.filed (Problem.sane_of_history hs) ih

/-- A call that a model has made up was asked for when the site was called for the first time with
that. -/
theorem History.exists_places (h : (initial p.settings).History p s)
    {r : (SiteId × NodeId × List CallArg) × SiteId} (hr : r ∈ s.synthetic) :
    ∃ t t' site c object, (initial p.settings).History p t ∧ t.Places p site c object t' ∧
      t'.History p s ∧ r ∉ t.synthetic ∧ r ∈ t'.synthetic ∧ site.id = r.1.1 := by
  induction h with
  | refl => simp [initial] at hr
  | @tail t t' hs h ih =>
    by_cases hold : r ∈ t.synthetic
    · obtain ⟨u, u', site, c, object, hu, hplaces, hafter, hnew, hr', hid⟩ := ih hold
      exact ⟨u, u', site, c, object, hu, hplaces, hafter.tail h, hnew, hr', hid⟩
    · have hfiled := History.filed hs
      rcases h.enrolls_or_places (Problem.sane_of_history hs) hfiled with h | ⟨site, c, object, h⟩
      · exact absurd (h.synthetic ▸ hr) hold
      · have hid := ((h.accrues hfiled).synthetic r hr).resolve_left hold
        exact ⟨t, t', site, c, object, hs, h, .refl, hold, hr, hid.symm⟩

/-- A dispatched call whose callee has no body has been made. -/
theorem Performed.made {i : SiteId} {site : DynamicSite} {o : NodeId} {callee : MethodId}
    (h : s.Performed p site c o callee) (hs : s.Filed p)
    (hsite : s.calls.sites.dynamic? i = some site) (hbody : ¬ p.HasBody callee) :
    ∃ j, s.Made p (site.resolved j callee) c (some o) := by
  rcases h.reaches_or_made with hreaches | ⟨i, -, hmade⟩
  · rw [hs.not_reaches hbody (hs.hasBody_caller hsite)] at hreaches
    cases hreaches
  · exact ⟨i, hmade⟩

end State

end PointsTo
