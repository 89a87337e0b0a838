import PointsTo.Proofs.Analysis.Dispatches

/-! The calls of the methods that are instantiated are made, and so are those that are dispatched.
An analysis is made of acts. -/
namespace PointsTo

namespace State

variable {p : Problem} {s t : State} {c : ContextId} {i : SiteId}

/-- A call with a known callee has been made under a context, unless it waits for the objects of
its receiver. -/
def Issued (p : Problem) (s : State) (c : ContextId) (i : SiteId) : Prop :=
  ∃ site, s.calls.sites.static? i = some site ∧
    (p.settings.policy ≠ .object ∨ site.receiver = none → s.Made p site c none)

theorem Issued.mono (h : s.Issued p c i) (ht : s.History p t) (hs : s.Sane p) :
    t.Issued p c i := by
  obtain ⟨site, hsite, hmade⟩ := h
  exact ⟨site, (ht.retains hs).calls.sites.static? hsite, fun h => (hmade h).mono ht⟩

/-- All calls of a method with known callees are issued under a context. -/
structure AllIssued (p : Problem) (s : State) (a : Activation) : Prop where
  surveyed : p.HasBody a.2 → a.2 ∈ s.summaries
  issued : ∀ (summary : Summary), s.summaries[a.2]? = some summary →
    ∀ i ∈ summary.staticCalls, s.Issued p a.1 i

theorem AllIssued.mono {a : Activation} (h : s.AllIssued p a) (ht : s.History p t)
    (hs : s.Sane p) : t.AllIssued p a where
  surveyed hbody := (ht.retains hs).mem_summaries (h.surveyed hbody)
  issued summary hsummary i hi := by
    have hmem : a.2 ∈ t.summaries :=
      Std.TreeMap.mem_iff_isSome_getElem?.2 (by rw [hsummary]; rfl)
    have hold := h.surveyed ((ht.sane hs).recorded.summaries a.2 hmem)
    rw [Std.TreeMap.mem_iff_isSome_getElem?, Option.isSome_iff_exists] at hold
    obtain ⟨known, hknown⟩ := hold
    cases Option.some.inj (((ht.retains hs).summaries a.2 known hknown).symm.trans hsummary)
    exact (h.issued _ hknown i hi).mono ht hs

end State

namespace Run
open State

variable {p : Problem} {s : State} {c : ContextId} {i : SiteId} {m : MethodId} {summary : Summary}
  {k : Caller}

/-- Only a call with a receiver waits for objects, and only under object sensitivity. -/
theorem ensures_attachInstance_eq_false {site : StaticSite}
    (h : p.settings.policy ≠ .object ∨ site.receiver = none) :
    Ensures (attachInstance p site c) s fun attached _ => attached = false := by
  unfold attachInstance
  split
  · exact ensures_pure rfl
  next hpolicy =>
  refine ensures_lift_bind fun decl _ => ?_
  split
  · exact ensures_pure rfl
  rw [h.resolve_left hpolicy]
  exact ensures_pure rfl

/-- A call waits for the objects of its receiver only if its callee is reached. -/
theorem continues_attachInstance {w : Phase} {site : StaticSite} {t : State} (h : s.Steps p w t)
    (henters : s.Enters p.scene
      (fun info => { info with instanceCalls := info.instanceCalls ++ [(site.id, c)] }) t)
    (hsite : s.calls.sites.static? site.id = some site)
    (hcallee : p.scene.OneBody → s.Runs site.caller ∧ s.Reaches site.callee) : s.Continues p t := by
  refine ⟨h.turns.history henters.frame.1 henters.frame.2, fun hone hgrounded => ?_⟩
  refine (hgrounded.maintains h.turns (henters.maintains hgrounded.tracked (d := (site.id, c))
    (fun i e he => ?_) (fun i e he => ?_) (live_of_static hsite (hcallee hone).1))).grounded hgrounded
  · simp only [PointerInfo.calls, List.mem_append, List.mem_singleton] at he ⊢
    grind
  · refine (List.mem_append.1 he).imp_right fun he => ?_
    cases List.mem_singleton.1 he
    exact ⟨site, hsite, (hcallee hone).2⟩

/-- What the calls of a summary rely on while they are put into the graph. -/
structure Fills (p : Problem) (c : ContextId) (m : MethodId) (summary : Summary) (s : State) :
    Prop where
  arises : s.Arises p
  context : s.contexts.Has c
  summary : s.summaries[m]? = some summary
  instantiated : (c, m) ∈ s.instantiated

theorem Fills.serves (h : Fills p c m summary s) : s.Serves p ⟨c, none⟩ :=
  ⟨h.arises.sane, h.context, nofun⟩

theorem Fills.continues {t : State} (hs : Fills p c m summary s) (h : s.Continues p t) :
    Fills p c m summary t where
  arises := hs.arises.continues h
  context := hs.context.mono (h.history.retains hs.arises.sane).contexts
  summary := (h.history.retains hs.arises.sane).summaries m summary hs.summary
  instantiated := (h.history.advances hs.arises.sane).instantiated _ hs.instantiated

instance : Preserves (Fills p c m summary) (Continues p) := ⟨fun _ _ h hs => hs.continues h⟩

theorem ensures_instantiateCall_issued (hs : Fills p c m summary s) (hi : i ∈ summary.staticCalls) :
    Ensures (instantiateCall p c i) s fun _ t => s.Continues p t ∧ t.Issued p c i := by
  have hsane := hs.arises.sane
  have hlists := hsane.recorded.static m summary hs.summary i hi
  obtain ⟨site, hsite⟩ := hlists.isStatic hsane.recorded.listed
  have hid := hsane.sites.static_id hsite
  subst hid
  have hissues (hone : p.scene.OneBody) : site.caller = m ∧ s.Issues site := by
    obtain ⟨site', hsite', hcaller, hissues⟩ := exists_issues hone hsane hs.instantiated hlists
    cases Option.some.inj (hsite'.symm.trans hsite)
    exact ⟨hcaller, hissues⟩
  have hedge (hone : p.scene.OneBody) (hgrounded : s.Grounded p) := by
    obtain ⟨rfl, hissued⟩ := hissues hone
    exact (grounds_addEdge site .static hgrounded hissued
      (.stated hs.instantiated hs.summary hi hsite rfl)).1 rfl
  refine ensures_get_bind ?_
  rw [hsite]
  refine ensures_bind (Q := fun _ s₁ => s.Continues p s₁ ∧
    (p.scene.OneBody → s₁.Runs site.caller ∧ s₁.Reaches site.callee)) (ensures_discard
      (ensures_modifyGet ⟨⟨.single (.join _ _ (SiteTable.static?_eq_some.1 hsite) rfl), ?_⟩, ?_⟩)) ?_
  · exact fun hone hgrounded => (hedge hone hgrounded).1.grounded hgrounded
  · exact fun hone => ⟨(hissues hone).2.2, (hedge hone (hs.arises.grounded hone)).2⟩
  rintro _ s₁ ⟨h₁, hcallee₁⟩
  have hs₁ := hs.continues h₁
  have hsane₁ := hs₁.arises.sane
  have hsite₁ := (h₁.history.retains hsane).calls.sites.static? hsite
  have hattach := ((ensures_attachInstance (hsane₁.serves_call hs₁.context hsite₁)
    ⟨site, hsite₁⟩).and (enters_attachInstance hsane₁.graph)).mono fun _ _ h =>
      continues_attachInstance h.1.1 h.2 hsite₁ hcallee₁
  refine ensures_bind (Q := fun attached s₂ => s₁.Continues p s₂ ∧
    (p.settings.policy ≠ .object ∨ site.receiver = none → attached = false)) ?_ ?_
  · by_cases hnow : p.settings.policy ≠ .object ∨ site.receiver = none
    · exact (hattach.and (ensures_attachInstance_eq_false hnow)).mono
        fun _ _ h => ⟨h.1, fun _ => h.2⟩
    · exact hattach.mono fun _ _ h => ⟨h, fun h => absurd h hnow⟩
  rintro attached s₂ ⟨h₂, hattached⟩
  have hs₂ := hs₁.continues h₂
  have hsite₂ := (h₂.history.retains hsane₁).calls.sites.static? hsite₁
  cases attached with
  | true =>
    refine ensures_pure ⟨h₁.trans h₂, site, hsite₂, fun h => ?_⟩
    cases hattached h
  | false =>
    have hadvances := h₂.history.advances hsane₁
    refine ensures_discard ((continues_call hs₂.arises hs₂.context hsite₂ (by simp) fun hone =>
      ⟨(hcallee₁ hone).1.mono hadvances, (hcallee₁ hone).2.mono hadvances⟩).mono ?_)
    rintro _ t ⟨hsteps, ht, hplaces⟩
    refine ⟨(h₁.trans h₂).trans ht, site, ?_, fun _ => hplaces.made hs₂.arises.history⟩
    exact (hsteps.retains hs₂.arises.sane).calls.sites.static? hsite₂

/-- A call that waits for objects is attached to its receiver in one act. -/
theorem continues_attach {f : PointerInfo → PointerInfo} (hf : Registering (i, c) f)
    (hi : summary.Waits i) : Follows (Fills p c m summary) (Continues p) (attach p i c f) := by
  intro s hs
  have hsane := hs.arises.sane
  obtain ⟨site, hsite, hplain⟩ := (hsane.recorded.described m summary hs.summary).waiting hi
  refine ((ensures_attach hf hs.serves hsite hplain).and (enters_attach hsane.graph)).mono ?_
  rintro _ t ⟨⟨hsteps, -⟩, henters⟩
  refine ⟨hsteps.turns.history henters.frame.1 henters.frame.2, fun _ hgrounded => ?_⟩
  have hlive : s.Live i := live_of_dynamic hsite (hplain.1 ▸ ⟨c, hs.instantiated⟩)
  exact (hgrounded.maintains hsteps.turns (henters.maintains hgrounded.tracked (d := (i, c))
    (fun info e => (hf.calls info e).1) (fun info e he => .inl (hf.instances info ▸ he))
    hlive)).grounded hgrounded

/-- The calls of a summary are made or attached to their receivers. -/
theorem ensures_instantiateCalls_issued {rest : Run Unit} {R : Unit → State → Prop}
    (hs : Fills p c m summary s)
    (h : ∀ t, s.Continues p t → (∀ i ∈ summary.staticCalls, t.Issued p c i) → Ensures rest t R) :
    Ensures (do
      summary.staticCalls.toList.forM (instantiateCall p c)
      summary.dynamicCalls.toList.forM (attachDynamic p · c)
      summary.unknownCalls.toList.forM (attachUnknown p · c)
      rest) s R := by
  refine ensures_bind (ensures_forM_each (I := fun t => s.Continues p t)
    (P := fun i t => t.Issued p c i) _ (Std.Refl.refl s) fun i hi t ht => ?_) ?_
  · have hst := hs.continues ht
    refine (ensures_instantiateCall_issued hst (Array.mem_toList_iff.1 hi)).mono
      fun _ t' ⟨ht', hissued⟩ => ⟨ht.trans ht', hissued, fun _ hold => ?_⟩
    exact hold.mono ht'.history hst.arises.sane
  rintro _ s₁ ⟨h₁, hissued, -⟩
  have hs₁ := hs.continues h₁
  have hdynamic : Follows (Fills p c m summary) (Continues p)
      (summary.dynamicCalls.toList.forM (attachDynamic p · c)) := .forM fun i hi =>
    continues_attach (registering_dynamic _) (.inl (Array.mem_toList_iff.1 hi))
  have hunknown : Follows (Fills p c m summary) (Continues p)
      (summary.unknownCalls.toList.forM (attachUnknown p · c)) := .forM fun i hi =>
    continues_attach (registering_unknown _) (.inr (Array.mem_toList_iff.1 hi))
  refine ensures_bind (hdynamic s₁ hs₁) fun _ s₂ h₂ => ?_
  refine ensures_bind (hunknown s₂ (hs₁.continues h₂)) fun _ s₃ h₃ => ?_
  refine h s₃ ((h₁.trans h₂).trans h₃) fun i hi => ?_
  exact (hissued i (Array.mem_toList_iff.2 hi)).mono (h₂.trans h₃).history hs₁.arises.sane

theorem tells_instantiateEdge {e : LocalEdge} : Tells p k (instantiateEdge p c e) :=
  tells_of_stays (w := .expansion)
    (fun _ hs => (ensures_instantiateEdge hs.1).mono fun _ _ h => h.1) stays_instantiateEdge

theorem tells_instantiateAllocation {a : FieldAllocation} :
    Tells p k (instantiateAllocation p c a) :=
  tells_of_stays (w := .expansion)
    (fun _ hs => (ensures_instantiateAllocation hs.1).mono fun _ _ h => h.1)
    stays_instantiateAllocation

theorem ensures_instantiate_issued (hs : s.Arises p) (hc : s.contexts.Has c)
    (hmem : (c, m) ∈ s.instantiated) (hm : p.HasBody m → m ∈ s.summaries) :
    Ensures (instantiate p m c) s fun _ t => s.Continues p t ∧ t.AllIssued p (c, m) := by
  refine ensures_get_bind ?_
  split
  · next hnone => exact ensures_pure ⟨Std.Refl.refl s, hm, by simp [hnone]⟩
  next summary hsummary =>
  have hfills : Fills p c m summary s := ⟨hs, hc, hsummary, hmem⟩
  refine ensures_bind (tells_reach s hfills.serves) fun _ s₁ h₁ => ?_
  have hserves₁ := h₁.history.serves hfills.serves
  refine ensures_bind (Follows.forM (fun _ _ => tells_instantiateEdge) s₁ hserves₁)
    fun _ s₂ h₂ => ?_
  have hserves₂ := h₂.history.serves hserves₁
  refine ensures_bind (Follows.forM (fun _ _ => tells_instantiateAllocation) s₂ hserves₂)
    fun _ s₃ h₃ => ?_
  extract_lets finish
  have hfinish : ∀ t, s₃.Continues p t → Ensures (finish ()) t fun _ t' =>
      s.Continues p t' ∧ t'.AllIssued p (c, m) := by
    intro t ht
    have hst : s.Continues p t := (h₁.trans h₂).trans (h₃.trans ht)
    refine ensures_instantiateCalls_issued (hfills.continues hst)
      fun t₁ ht₁ hissued => ensures_modify ?_
    have hst₁ : s.Continues p t₁ := hst.trans ht₁
    have hall : ∀ t', t₁.Continues p t' → s.Continues p t' ∧ t'.AllIssued p (c, m) := by
      intro t' ht'
      have hst' : s.Continues p t' := hst₁.trans ht'
      have hsurveyed := (hst'.history.retains hs.sane).mem_summaries ∘ hm
      refine ⟨hst', hsurveyed, fun known hknown i hi => ?_⟩
      cases Option.some.inj ((hfills.continues hst').summary.symm.trans hknown)
      exact (hissued i hi).mono ht'.history (hfills.continues hst₁).arises.sane
    split
    · exact hall _ (Turn.continues (w := .expansion) (.step (.records (.link _))) rfl rfl
        fun _ _ => {})
    · exact hall _ (Std.Refl.refl t₁)
  split
  · have hformals : Tells p ⟨c, none⟩ (fabricateFormals p m c) :=
      tells_of_stays walks_fabricateFormals stays_fabricateFormals
    exact ensures_bind (hformals s₃ (h₃.history.serves hserves₂)) fun _ s₄ h₄ => hfinish s₄ h₄
  · exact hfinish s₃ (Std.Refl.refl s₃)

/-- The method that is taken from the agenda issues its calls. -/
theorem ensures_drainOnce_issued (hs : s.Arises p) :
    Ensures (drainOnce p) s fun _ t => s.Continues p t ∧
      ∀ a ∈ t.instantiated, a ∈ s.instantiated ∨ t.AllIssued p a := by
  refine ensures_get_bind ?_
  split
  · exact ensures_pure ⟨Std.Refl.refl s, fun _ ha => .inl ha⟩
  next c m agenda hpop =>
  have hlist := Queue.toList_of_pop? hpop
  refine ensures_modify_bind ?_
  refine ensures_get_bind ?_
  split
  · next hold =>
    have hturn : s.Turn p .expansion { s with agenda } :=
      .skip rfl hpop (Std.TreeSet.contains_iff_mem.1 hold)
    refine ensures_pure ⟨hturn.continues rfl rfl fun _ _ =>
      { toAdvances := (hturn.retains hs.sane).advances (Turns.precedes (.single hturn) hs.sane)
        reached := fun a ha => .inl (ha.imp_left fun ha => hlist ▸ .tail _ ha) },
      fun _ ha => .inl ha⟩
  next hnew =>
  rw [Std.TreeSet.contains_iff_mem] at hnew
  have hmem : (c, m) ∈ s.agenda.toList := hlist ▸ .head _
  have hc : s.contexts.Has c := (hs.sane.recorded.agenda _ hmem).1
  have hturn : s.Turn p .expansion
      { s with agenda, instantiated := s.instantiated.insert (c, m) } := .take rfl hpop hnew
  have h₁ := hturn.continues rfl rfl fun _ _ =>
    { toAdvances := (hturn.retains hs.sane).advances (Turns.precedes (.single hturn) hs.sane)
      reached := fun a ha => .inl <| by
        rcases ha with ha | ha
        · exact .inl (hlist ▸ .tail _ ha)
        · rcases (mem_insert ..).1 ha with rfl | ha
          · exact .inl hmem
          · exact .inr ha }
  refine ensures_modify_bind ?_
  have hserves₁ := h₁.history.serves (k := ⟨c, none⟩) ⟨hs.sane, hc, nofun⟩
  refine ensures_bind ((ensures_summarize (w := .expansion) hserves₁).and
    (tells_summarize _ hserves₁)) ?_
  rintro _ s₂ ⟨⟨hsteps₂, hsummary⟩, h₂⟩
  have h₁₂ : s.Continues p s₂ := h₁.trans h₂
  have hserves₂ := hsteps₂.serves hserves₁
  have hmem : (c, m) ∈ s₂.instantiated := by
    rw [hsteps₂.instantiated]
    exact (mem_insert ..).2 (.inl rfl)
  refine ensures_bind ((ensures_instantiate hserves₂ hsummary).and
    (ensures_instantiate_issued (hs.continues h₁₂) hserves₂.2.1 hmem hsummary)) ?_
  rintro _ t ⟨⟨hsteps, -⟩, ht, hissued⟩
  refine ensures_pure ⟨h₁₂.trans ht, fun a ha => ?_⟩
  rw [hsteps.instantiated, hsteps₂.instantiated] at ha
  rcases (mem_insert ..).1 ha with rfl | ha
  · exact .inr hissued
  · exact .inl ha

theorem tells_entryMethods : Tells p k (entryMethods p) := by
  refine tells_of_stays (w := .dispatch) walks_entryMethods ?_
  unfold entryMethods
  split
  · exact .pure _
  refine .mapM fun name _ => .bind (stays_scan _) fun m? => ?_
  split
  · exact .pure _
  · exact .throw nofun

theorem tells_link {a : Activation} : Tells p k (link p a) :=
  tells_of_stays (w := .expansion) (fun _ hs => (ensures_link hs.1).mono fun _ _ h => h.1) stays_link

theorem Drained.tables {t : State} {r : Option Bool} (h : Drained p s r t) :
    t.resolved = s.resolved ∧ t.unresolved = s.unresolved ∧
      t.fieldDispatched = s.fieldDispatched := by
  cases h with
  | done => exact ⟨rfl, rfl, rfl⟩
  | known => exact ⟨rfl, rfl, rfl⟩
  | new _ _ h _ => exact h.tables

end Run

namespace Problem
open State

variable {p : Problem} {s t : State}

/-- What has become of the calls between two parts of an analysis. -/
structure Accounts (p : Problem) (s : State) : Prop extends s.Arises p where
  concluded : ∀ d ∈ s.resolved, s.Concluded p d
  fields : ∀ d ∈ s.fieldDispatched, s.FieldPerformed p d
  issued : ∀ a ∈ s.instantiated, s.AllIssued p a

theorem Accounts.sane (h : p.Accounts s) : s.Sane p := h.toArises.sane

/-- Every call on an object that has been resolved is accounted for. -/
theorem Accounts.performed (h : p.Accounts s) {site : DynamicSite} {c : ContextId} {o : NodeId}
    {callee : MethodId} (hsite : s.calls.sites.dynamic? site.id = some site)
    (hmade : s.Makes p site c o callee) : s.Performed p site c o callee := by
  rcases hmade with ⟨hd, hresolves⟩ | ⟨hd, a, f, ha, hf, rfl⟩
  · exact (h.concluded _ hd).performed site callee hsite hresolves
  · exact h.fields _ hd site a f hsite ha hf

theorem Accounts.concludes (h : p.Accounts s) (ht : s.Concludes p t)
    (hissued : ∀ a ∈ t.instantiated, a ∈ s.instantiated ∨ t.AllIssued p a) : p.Accounts t where
  toArises := h.continues ht.toContinues
  concluded d hd := by
    refine (ht.resolved h.sane d hd).elim (fun hd => ?_) id
    exact (h.concluded d hd).mono ht.history h.sane (h.sane.recorded.resolved d hd) ht.unresolved
  fields d hd := by
    refine (ht.fields h.sane d hd).elim (fun hd => ?_) id
    exact (h.fields d hd).mono ht.history h.sane (h.sane.recorded.fieldDispatched d hd)
  issued a ha := (hissued a ha).elim (fun ha => (h.issued a ha).mono ht.history h.sane) id

/-- Acts that dispatch no calls. -/
theorem Accounts.of_tables (h : p.Accounts s) (ht : s.Continues p t)
    (htables : t.resolved = s.resolved ∧ t.unresolved = s.unresolved ∧
      t.fieldDispatched = s.fieldDispatched)
    (hissued : ∀ a ∈ t.instantiated, a ∈ s.instantiated ∨ t.AllIssued p a) : p.Accounts t :=
  h.concludes (ht.concludes htables) hissued

/-- A part of an analysis is made of acts, after which all calls are accounted for. -/
theorem Accounts.step (h : p.Accounts s) (hreach : p.Reachable s) {α : Type} {a : α} (part : Part α)
    (htakes : part.Takes (p.Within s)) (hrun : part.run p s = .ok a t) :
    s.Continues p t ∧ p.Accounts t := by
  have hs := h.sane
  have hsteps : ∀ {w}, s.Steps p w t → s.Continues p t → s.Continues p t ∧ p.Accounts t :=
    fun hw ht => ⟨ht, h.of_tables ht hw.tables fun a ha => .inl (hw.instantiated ▸ ha)⟩
  have hdispatch : ∀ {w : Phase}, w.instantiates = false → s.Turns p w t → s.Concludes p t →
      s.Continues p t ∧ p.Accounts t :=
    fun hw hturns ht => ⟨ht.toContinues,
      h.concludes ht fun a ha => .inl (hturns.instantiated hw ▸ ha)⟩
  cases part with
  | entryMethods =>
    exact hsteps ((Run.walks_entryMethods (w := .dispatch) s hs.serves).1 hrun)
      ((Run.tells_entryMethods s hs.serves).1 hrun)
  | addEntry m =>
    exact hsteps ((Run.walks_addEntry (w := .dispatch) s hs.serves).1 hrun)
      ⟨.single (.entry hrun), fun _ h => ((Run.grounds_addEntry h).1 hrun).grounded h⟩
  | beginRound =>
    cases hrun
    have ht : s.Continues p _ := ⟨.single .round, fun _ h => h.withRounds _⟩
    exact ⟨ht, h.of_tables ht ⟨rfl, rfl, rfl⟩ fun _ => .inl⟩
  | drainOnce =>
    obtain ⟨ht, hissued⟩ := (Run.ensures_drainOnce_issued h.toArises).1 hrun
    have hdrained := (Run.ensures_drainOnce hs).1 hrun
    exact ⟨ht, h.of_tables ht hdrained.tables hissued⟩
  | link a =>
    exact hsteps ((Run.ensures_link hs).1 hrun).1 ((Run.tells_link s hs.serves).1 hrun)
  | solve =>
    have hset := (Run.ensures_solve hreach.sound).1 hrun
    have ht : s.Continues p t := ⟨.single (.solution hset), fun _ => hset.grounded⟩
    refine ⟨ht, h.of_tables ht ?_ fun a ha => .inl ?_⟩
    · rw [hset.rest]
      exact ⟨rfl, rfl, rfl⟩
    · rwa [hset.rest] at ha
  | receive n objects =>
    have hmoves := (Run.ensures_receive (w := .dispatch) (by decide) hreach.sound (by rintro ⟨⟩)
      htakes.2).1 hrun
    exact hdispatch (by decide) hmoves.1.turns ((Run.concludes_receive h.toArises htakes.2).1 hrun)
  | retry =>
    have hmoves := (Run.ensures_retry (w := .dispatch) (by decide) hreach.sound (by rintro ⟨⟩)).1 hrun
    exact hdispatch (by decide) hmoves.1.turns ((Run.concludes_retry h.toArises).1 hrun)

/-- Between the parts of an analysis all calls are accounted for. -/
theorem Reachable.accounts (h : p.Reachable s) : p.Accounts s := by
  induction h with
  | initial =>
    exact ⟨⟨.refl, fun _ => grounded_initial p⟩, by simp [State.initial], by simp [State.initial],
      by simp [State.initial]⟩
  | step part hreach htakes hrun ih => exact (ih.step hreach part htakes hrun).2

/-- The states that the analysis goes on to from a reachable one. -/
def onward (p : Problem) (s : State) : p.Closed where
  Holds t := p.Reachable t ∧ s.Continues p t
  reachable := And.left
  step part ht htakes hrun :=
    ⟨ht.1.step part htakes hrun, ht.2.trans (ht.1.accounts.step ht.1 part htakes hrun).1⟩

theorem safe_begin {S : p.Closed} {work n : Nat} : (p.parts S).Runs s (Run.begin p work n) := by
  induction n with
  | zero =>
    rw [Run.begin, ← bind_assoc]
    exact .last safe_entries
  | succ n ih =>
    refine .next ih fun t again _ => ?_
    cases again with
    | true => exact safe_round
    | false => exact .pure trivial

theorem reachable_of_after {work n : Nat} {again : Bool} (h : p.after work n = .ok again s) :
    p.Reachable s :=
  (holds_of_safe (S := p.everywhere) safe_begin .initial h).1

theorem grounded_of_after {work n : Nat} {again : Bool} (hone : p.scene.OneBody)
    (h : p.after work n = .ok again s) : s.Grounded p :=
  (reachable_of_after h).accounts.grounded hone

end Problem

end PointsTo
