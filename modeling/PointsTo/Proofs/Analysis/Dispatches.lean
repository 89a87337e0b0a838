import PointsTo.Proofs.Analysis.History

/-! What becomes of the dispatches: each callee that is found is called, unless it leads back to the
caller, and a dispatch that finds no callee is left for a later attempt. -/
namespace PointsTo

namespace State

variable {p : Problem} {s s₁ s' t t' : State} {d : Dispatch} {site : DynamicSite} {c : ContextId}
  {o : NodeId} {callee : MethodId}

/-- On its way to `s` the analysis is about to make a call on an object for a callee in `t`, and is
done with it in `t'`. -/
structure Resolution (p : Problem) (s : State) (site : DynamicSite) (c : ContextId) (o : NodeId)
    (callee : MethodId) (t t' : State) : Prop where
  past : (initial p.settings).History p t
  filed : t.calls.sites.dynamic? site.id = some site
  context : t.contexts.Has c
  run : ∃ a new, t.graph.At o a ∧ Run.callOn p site c o (Run.binds site a) callee t = .ok new t'
  future : t'.History p s

/-- A call on an object was resolved to a callee, and it was made, unless the callee led back to the
caller at that moment. -/
def Performed (p : Problem) (s : State) (site : DynamicSite) (c : ContextId) (o : NodeId)
    (callee : MethodId) : Prop :=
  ∃ t t', s.Resolution p site c o callee t t' ∧ (t.calls.reaches callee site.caller = true ∨
    ∃ i, s.calls.sites.static? i = some (site.resolved i callee) ∧
      s.Made p (site.resolved i callee) c (some o))

/-- A function in a field was called. -/
def FieldPerformed (p : Problem) (s : State) (d : Dispatch) : Prop :=
  ∀ site a f, s.calls.sites.dynamic? d.1 = some site → s.graph.At d.2.2 a →
    a.function? = some f → s.Performed p site d.2.1 d.2.2 f.method

/-- If no callee is found for a dispatch, it is among those that are left. -/
def Postponed (p : Problem) (s : State) (d : Dispatch) : Prop :=
  ∀ site, s.calls.sites.dynamic? d.1 = some site →
    (∃ t, Run.callees p site d.2.2 s = .ok [] t) → d ∈ s.unresolved

/-- What has become of a dispatch. -/
structure Concluded (p : Problem) (s : State) (d : Dispatch) : Prop where
  postponed : s.Postponed p d
  performed : ∀ site callee, s.calls.sites.dynamic? d.1 = some site →
    s.ResolvesTo p site d.2.2 callee → s.Performed p site d.2.1 d.2.2 callee

theorem Performed.mono (h : s.Performed p site c o callee) (ht : s.History p s') (hs : s.Sane p) :
    s'.Performed p site c o callee := by
  obtain ⟨t, t', hres, hmade⟩ := h
  refine ⟨t, t', { hres with future := hres.future.trans ht }, hmade.imp_right ?_⟩
  rintro ⟨i, hi, hmade⟩
  exact ⟨i, (ht.retains hs).calls.sites.static? hi, hmade.mono ht⟩

theorem FieldPerformed.mono (h : s.FieldPerformed p d) (ht : s.History p s') (hs : s.Sane p)
    (hd : s.extent.HasDispatch d) : s'.FieldPerformed p d := by
  intro site a' f hsite ha' hf
  have hr := ht.retains hs
  have ha : s.graph.At d.2.2 _ := Array.getElem?_eq_getElem hd.2
  obtain ⟨b, hb, hk⟩ := hr.graph.nodes d.2.2 _ ha
  cases Option.some.inj (hb.symm.trans ha')
  rw [hk.function?] at hf
  exact (h site _ f (hr.calls.sites.dynamic?_of_lt hd.1.1 hsite) ha hf).mono ht hs

theorem Postponed.retains (h : s.Postponed p d) (hr : s.Retains p s')
    (hd : s.extent.HasDispatch d) (hleft : ∀ e ∈ s.unresolved, e ∈ s'.unresolved) :
    s'.Postponed p d := by
  intro site hsite hnone
  have hsite₀ := hr.calls.sites.dynamic?_of_lt hd.1.1 hsite
  refine hleft d (h site hsite₀ ?_)
  exact ((Run.agrees_callees (hr.looksLike hd.2)).answers_iff (.refl s s')).2 hnone

theorem Concluded.mono (h : s.Concluded p d) (ht : s.History p s') (hs : s.Sane p)
    (hd : s.extent.HasDispatch d) (hleft : ∀ e ∈ s.unresolved, e ∈ s'.unresolved) :
    s'.Concluded p d where
  postponed := h.postponed.retains (ht.retains hs) hd hleft
  performed site callee hsite hresolves := by
    have hr := ht.retains hs
    have hsite₀ := hr.calls.sites.dynamic?_of_lt hd.1.1 hsite
    exact (h.performed site callee hsite₀ ((hr.resolvesTo_iff hd.2).2 hresolves)).mono ht hs

/-- A dispatch that finds callees is not left. -/
theorem concluded_of_callees {found : List MethodId} {t : State}
    (hsite : s.calls.sites.dynamic? d.1 = some site) (hd : s.extent.HasDispatch d)
    (hfound : Run.callees p site d.2.2 s = .ok found t) (hne : found ≠ [])
    (hr : s.Retains p s')
    (hperformed : ∀ callee ∈ found, s'.Performed p site d.2.1 d.2.2 callee) :
    s'.Concluded p d := by
  have hsite' := hr.calls.sites.dynamic? hsite
  refine ⟨fun site₁ hsite₁ hnone => ?_, fun site₁ callee hsite₁ hresolves => ?_⟩
  · cases Option.some.inj (hsite'.symm.trans hsite₁)
    obtain ⟨t', hnone⟩ :=
      ((Run.agrees_callees (hr.looksLike hd.2)).answers_iff (.refl s s')).2 hnone
    rw [hfound] at hnone
    cases hnone
    exact absurd rfl hne
  · cases Option.some.inj (hsite'.symm.trans hsite₁)
    obtain ⟨found', hmem, t', hfound'⟩ := (hr.resolvesTo_iff hd.2).2 hresolves
    rw [hfound] at hfound'
    cases hfound'
    exact hperformed callee hmem

theorem concluded_of_dynamic?_eq_none (h : s.calls.sites.dynamic? d.1 = none) :
    s.Concluded p d := by
  constructor
  · intro site hsite
    rw [h] at hsite
    cases hsite
  · intro site callee hsite
    rw [h] at hsite
    cases hsite

/-- Acts that conclude every dispatch that they resolve. -/
structure Concludes (p : Problem) (s s' : State) : Prop extends s.Continues p s' where
  unresolved : ∀ d ∈ s.unresolved, d ∈ s'.unresolved
  resolved : s.Sane p → ∀ d ∈ s'.resolved, d ∈ s.resolved ∨ s'.Concluded p d
  fields : s.Sane p → ∀ d ∈ s'.fieldDispatched, d ∈ s.fieldDispatched ∨ s'.FieldPerformed p d

theorem Concludes.refl (s : State) : s.Concludes p s :=
  ⟨Std.Refl.refl s, fun _ h => h, fun _ _ h => .inl h, fun _ _ h => .inl h⟩

/-- What the first acts enter into the tables is concluded like the rest. -/
theorem Concludes.head (h : s₁.Concludes p s') (hfirst : s.Continues p s₁)
    (hunresolved : ∀ d ∈ s.unresolved, d ∈ s₁.unresolved)
    (hresolved : s.Sane p → ∀ d ∈ s₁.resolved, d ∈ s.resolved ∨ s'.Concluded p d)
    (hfields : s.Sane p → ∀ d ∈ s₁.fieldDispatched,
      d ∈ s.fieldDispatched ∨ s'.FieldPerformed p d) : s.Concludes p s' where
  toContinues := hfirst.trans h.toContinues
  unresolved d hd := h.unresolved d (hunresolved d hd)
  resolved hs d hd := (h.resolved (hfirst.history.sane hs) d hd).elim (hresolved hs d) .inr
  fields hs d hd := (h.fields (hfirst.history.sane hs) d hd).elim (hfields hs d) .inr

theorem Concludes.trans (h : s.Concludes p s₁) (h' : s₁.Concludes p s') : s.Concludes p s' := by
  refine h'.head h.toContinues h.unresolved (fun hs d hd => ?_) fun hs d hd => ?_
  · have hs₁ := h.history.sane hs
    exact (h.resolved hs d hd).imp_right fun hd' =>
      hd'.mono h'.history hs₁ (hs₁.recorded.resolved d hd) h'.unresolved
  · have hs₁ := h.history.sane hs
    exact (h.fields hs d hd).imp_right fun hd' =>
      hd'.mono h'.history hs₁ (hs₁.recorded.fieldDispatched d hd)

instance : Std.Refl (Concludes p) := ⟨Concludes.refl⟩

instance : Trans (Concludes p) (Concludes p) (Concludes p) := ⟨Concludes.trans⟩

/-- Acts that leave the tables of dispatches alone. -/
theorem Continues.concludes (h : s.Continues p s') (htables : s'.resolved = s.resolved ∧
    s'.unresolved = s.unresolved ∧ s'.fieldDispatched = s.fieldDispatched) :
    s.Concludes p s' where
  toContinues := h
  unresolved _ hd := htables.2.1.symm ▸ hd
  resolved _ _ hd := .inl (htables.1 ▸ hd)
  fields _ _ hd := .inl (htables.2.2 ▸ hd)

theorem continues_claim (hd : s.extent.HasDispatch d) :
    s.Continues p { s with resolved := s.resolved.insert d } :=
  Turn.continues (w := .dispatch) (.claim hd) rfl rfl fun _ _ => {}

theorem continues_mark (hd : s.extent.HasDispatch d) :
    s.Continues p { s with fieldDispatched := s.fieldDispatched.insert d } :=
  Turn.continues (w := .dispatch) (.throughField hd) rfl rfl fun _ _ => {}

theorem Concludes.claim (h : State.Concludes p { s with resolved := s.resolved.insert d } s')
    (hd : s.extent.HasDispatch d) (hclaimed : d ∈ s.resolved ∨ s'.Concluded p d) :
    s.Concludes p s' := by
  refine h.head (continues_claim hd) (fun _ he => he) (fun _ e he => ?_) fun _ _ => .inl
  rcases (mem_insert ..).1 he with rfl | he
  · exact hclaimed
  · exact .inl he

theorem Concludes.mark
    (h : State.Concludes p { s with fieldDispatched := s.fieldDispatched.insert d } s')
    (hd : s.extent.HasDispatch d) (hmarked : s'.FieldPerformed p d) : s.Concludes p s' := by
  refine h.head (continues_mark hd) (fun _ he => he) (fun _ _ => .inl) fun _ e he => ?_
  rcases (mem_insert ..).1 he with rfl | he
  · exact .inr hmarked
  · exact .inl he

/-- What the dispatch of a call relies on. -/
structure Admits (p : Problem) (d : Dispatch) (s : State) : Prop where
  arises : s.Arises p
  known : s.extent.HasDispatch d
  live : p.scene.OneBody → s.Live d.1

/-- What the calls that a dispatch makes rely on. -/
structure Offers (p : Problem) (site : DynamicSite) (c : ContextId) (s : State) : Prop where
  arises : s.Arises p
  context : s.contexts.Has c
  filed : s.calls.sites.dynamic? site.id = some site
  runs : p.scene.OneBody → s.Runs site.caller

theorem Offers.serves (h : s.Offers p site c) : s.Serves p ⟨c, none⟩ :=
  ⟨h.arises.sane, h.context, nofun⟩

theorem Admits.continues (hs : s.Admits p d) (h : s.Continues p s') : s'.Admits p d where
  arises := hs.arises.continues h
  known := hs.known.mono (h.history.precedes hs.arises.sane).extent
  live hone := (hs.live hone).mono (h.history.advances hs.arises.sane)

theorem Offers.continues (hs : s.Offers p site c) (h : s.Continues p s') : s'.Offers p site c where
  arises := hs.arises.continues h
  context := hs.context.mono (h.history.retains hs.arises.sane).contexts
  filed := (h.history.retains hs.arises.sane).calls.sites.dynamic? hs.filed
  runs hone := (hs.runs hone).mono (h.history.advances hs.arises.sane)

instance : Preserves (Admits p d) (Concludes p) := ⟨fun _ _ h hs => hs.continues h.toContinues⟩

instance : Preserves (Offers p site c) (Concludes p) := ⟨fun _ _ h hs => hs.continues h.toContinues⟩

theorem Admits.offers (hs : s.Admits p d) (hsite : s.calls.sites.dynamic? d.1 = some site) :
    s.Offers p site d.2.1 where
  arises := hs.arises
  context := hs.known.1.2
  filed := by rwa [hs.arises.sane.sites.dynamic_id hsite]
  runs hone := (hs.live hone).runs hsite

end State

namespace Run
open State

variable {p : Problem} {s : State} {site : DynamicSite} {i : SiteId} {c : ContextId} {o : NodeId}

/-- A callee is called, unless it leads back to the caller. -/
theorem ensures_callOn_made {binds : Bool} {callee : MethodId}
    (hs : (initial p.settings).History p s) (hc : s.contexts.Has c)
    (hsite : s.calls.sites.dynamic? site.id = some site) (ho : o.index < s.graph.nodes.size) :
    Ensures (callOn p site c o binds callee) s fun _ s' => s.History p s' ∧
      (s.calls.reaches callee site.caller = true ∨
        ∃ i, s'.calls.sites.static? i = some (site.resolved i callee) ∧
          s'.Made p (site.resolved i callee) c (some o)) := by
  have hsane := Problem.sane_of_history hs
  refine ensures_callOn_of hsane.sites hsite fun i s₁ s₂ heq hresolved hedge => ?_
  have h₁ : s.History p s₁ := heq ▸ .single (.resolve site.id callee)
  have hsane₁ := h₁.sane hsane
  have h₂ : s₁.History p s₂ := by
    rcases hedge with ⟨-, rfl⟩ | ⟨-, rfl⟩
    · exact .refl
    · have hsite₁ := (h₁.retains hsane).calls.sites.dynamic? hsite
      exact .single (.join callee .dynamic (SiteTable.dynamic?_eq_some.1 hsite₁) rfl)
  have h₁₂ : s.History p s₂ := h₁.trans h₂
  have hsane₂ := h₁₂.sane hsane
  have hsame : s₁.calls.reaches callee site.caller = s.calls.reaches callee site.caller := by
    rw [heq]
    rfl
  refine ⟨fun hback => ⟨h₁₂, .inl (hsame ▸ hback)⟩, ?_⟩
  have hresolved₂ := (h₂.retains hsane₁).calls.sites.static? hresolved
  have hserves := hsane₂.serves_call (hc.mono (h₁₂.retains hsane).contexts) hresolved₂
  refine (walks_call (w := .dispatch) nofun (by decide) s₂ hserves).runs.mono fun new s' ⟨h', hrun⟩ => ?_
  have hplaces : s₂.Places p (site.resolved i callee) c (some o) s' :=
    { filed := hresolved₂
      context := hserves.2.1
      known := by
        rintro _ ⟨⟩
        exact lt_of_lt_of_le ho (h₁₂.precedes hsane).extent.1
      run := ⟨new, hrun⟩ }
  refine ⟨h₁₂.tail (.call hplaces), .inr ⟨i, ?_, hplaces.made (hs.trans h₁₂)⟩⟩
  exact (h'.retains hsane₂).calls.sites.static? hresolved₂

theorem ensures_callOn_performed {a : Node} {callee : MethodId} (hs : s.Offers p site c)
    (ha : s.graph.At o a) (hmakes : s.Makes p site c o callee) :
    Ensures (callOn p site c o (binds site a) callee) s fun _ s' => s.Continues p s' ∧
      s'.Performed p site c o callee := by
  refine (ensures_callOn_made hs.arises.history hs.context hs.filed ha.lt_size).runs.mono ?_
  rintro new s' ⟨⟨h, hmade⟩, hrun⟩
  refine ⟨⟨h, fun hone hgrounded => ?_⟩, s, s', ?_, hmade⟩
  · exact ((grounds_callOn hgrounded hs.context hs.filed (hs.runs hone) hmakes ha).1 hrun).grounded
      hgrounded
  · exact ⟨hs.arises.history, hs.filed, hs.context, ⟨a, new, ha, hrun⟩, .refl⟩

theorem ensures_callAll_performed {callees : List MethodId} (hs : s.Offers p site c)
    (hmakes : ∀ callee ∈ callees, s.Makes p site c o callee) :
    Ensures (callAll p site c o callees) s fun _ s' => s.Concludes p s' ∧
      ∀ callee ∈ callees, s'.Performed p site c o callee := by
  have hsane := hs.arises.sane
  have htables : Ensures (callAll p site c o callees) s fun _ s' => s.Steps p .dispatch s' :=
    ensures_callAll (by decide) hs.serves hs.filed nofun
  have hperformed : Ensures (callAll p site c o callees) s fun _ s' => s.Continues p s' ∧
      ∀ callee ∈ callees, s'.Performed p site c o callee := by
    refine ensures_node_bind fun a ha => ?_
    refine ensures_bind (ensures_mapM_each (I := fun s' => s.Continues p s')
      (P := fun callee s' => s'.Performed p site c o callee) callees (Std.Refl.refl s) ?_)
      fun _ s' h' => ensures_pure ⟨h'.1, h'.2.1⟩
    intro callee hcallee s₁ h₁
    have hr := h₁.history.retains hsane
    obtain ⟨a₁, ha₁, hkeep⟩ := hr.graph.nodes o a ha
    have hbinds : binds site a = binds site a₁ := by
      simp only [binds, Node.isFunction, hkeep.function?]
    rw [hbinds]
    refine (ensures_callOn_performed (hs.continues h₁) ha₁ ?_).mono ?_
    · exact (hmakes callee hcallee).mono hr (h₁.history.precedes hsane) hsane
    · rintro _ s' ⟨h', hcalled⟩
      exact ⟨h₁.trans h', hcalled, fun m hm => hm.mono h'.history (h₁.history.sane hsane)⟩
  refine (htables.and hperformed).mono ?_
  rintro _ s' ⟨hsteps, hcontinues, hall⟩
  exact ⟨hcontinues.concludes hsteps.tables, hall⟩

/-- What leaves the calls alone concludes nothing. -/
theorem concludes_of_stays {α : Type} {k : Caller} {m : Run α} (hs : s.Serves p k)
    (hwalk : Walks p .dispatch k m) (hstays : Stays p.scene m) :
    Ensures m s fun _ s' => s.Concludes p s' := by
  refine ((hwalk s hs).and (tells_of_stays hwalk hstays s hs)).mono ?_
  rintro _ s' ⟨h, hcontinues⟩
  exact hcontinues.concludes (Steps.tables h)

/-- The functions in a field are marked and called one after the other. -/
theorem concludes_callThroughField :
    Follows (Offers p site c) (Concludes p) (callThroughField p site c o) := by
  have hstays {α : Type} {m : Run α} (hwalk : Walks p .dispatch ⟨c, none⟩ m)
      (hstays : Stays p.scene m) : Follows (Offers p site c) (Concludes p) m :=
    fun s hs => concludes_of_stays hs.serves hwalk hstays
  unfold callThroughField
  split
  · exact .pure []
  refine .bind (hstays (walks_node o) (stays_node o)) fun a => ?_
  split
  · exact .pure []
  have hfield : ∀ g : FlowGraph, g.Consistent p.scene →
      Ensures (Growing.objectField o (.named site.signature.name)) g fun _ g' => g.Grows p.scene g' :=
    fun _ hg => (FlowGraph.ensures_objectField hg).mono fun _ _ h => h.1
  refine .bind (hstays (walks_grow hfield) (stays_grow hfield)) fun field => .bind .get fun t => ?_
  refine .bind (.mapM fun f _ s hs => ensures_node_bind fun a ha => ?_) fun _ => .pure _
  split
  · exact ensures_pure (.refl s)
  next info hfun =>
  refine ensures_get_bind ?_
  split
  · exact ensures_pure (.refl s)
  have hd : s.extent.HasDispatch (site.id, c, f) :=
    ⟨⟨SiteTable.lt_size_of_dynamic? hs.filed, hs.context⟩, ha.lt_size⟩
  have hmark := continues_mark (p := p) hd
  refine ensures_modify_bind ((ensures_callAll_performed (hs.continues hmark)
    (List.forall_mem_singleton.2 (.inr ?_))).mono fun _ s' ⟨h', hperformed⟩ => ?_)
  · exact ⟨(mem_insert ..).2 (.inl rfl), a, info, ha, hfun, rfl⟩
  refine h'.mark hd fun site' a' f' hsite' ha' hf' => ?_
  have hr := History.retains (hmark.history.trans h'.history) hs.arises.sane
  cases Option.some.inj ((hr.calls.sites.dynamic? hs.filed).symm.trans hsite')
  obtain ⟨b, hb, hk⟩ := hr.graph.nodes f a ha
  cases Option.some.inj (hb.symm.trans ha')
  cases Option.some.inj (hfun.symm.trans (hk.function?.symm.trans hf'))
  exact hperformed _ (.head _)

/-- Where a dispatch is resolved for the first time, it is concluded. -/
theorem concludes_claim_bind {m : Run (List NodeId)} (hs : s.Admits p (i, c, o))
    (h : ∀ s₁ : State, s₁ = { s with resolved := s.resolved.insert (i, c, o) } →
      s₁.Admits p (i, c, o) →
      Ensures m s₁ fun _ s' => s₁.Concludes p s' ∧ s'.Concluded p (i, c, o)) :
    Ensures (do if !(← claim (i, c, o)) then return [] else m) s fun _ s' =>
      s.Concludes p s' := by
  refine ensures_modifyGet_bind ?_
  split
  · next hold =>
    refine ensures_pure ((Concludes.refl _).claim hs.known (.inl ?_))
    simpa using hold
  · refine (h _ rfl (hs.continues (continues_claim hs.known))).mono fun _ s' ⟨h', hconcluded⟩ => ?_
    exact h'.claim hs.known (.inr hconcluded)

theorem concludes_dispatchWith {rule : DynamicSite → Run (List NodeId)}
    (hrule : ∀ site (s₁ : State), s₁.Admits p (i, c, o) → (i, c, o) ∈ s₁.resolved →
      s₁.calls.sites.dynamic? i = some site →
      Ensures (rule site) s₁ fun _ s' => s₁.Concludes p s' ∧ s'.Concluded p (i, c, o)) :
    Follows (Admits p (i, c, o)) (Concludes p) (dispatchWith i c o rule) := by
  intro s hs
  refine concludes_claim_bind hs fun s₁ heq hs₁ => ensures_get_bind ?_
  split
  · next hnone =>
    refine ensures_pure ⟨.refl s₁, concluded_of_dynamic?_eq_none hnone⟩
  · next site hsite => exact hrule site s₁ hs₁ (heq ▸ (mem_insert ..).2 (.inl rfl)) hsite

/-- A dispatch that finds callees calls them. -/
theorem concludes_callAll_found {found : List MethodId} {s₂ : State} (hs : s.Admits p (i, c, o))
    (hclaimed : (i, c, o) ∈ s.resolved) (hsite : s.calls.sites.dynamic? i = some site)
    (h : s.Concludes p s₂) (hfound : callees p site o s = .ok found s₂) (hne : found ≠ []) :
    Ensures (callAll p site c o found) s₂ fun _ s' =>
      s.Concludes p s' ∧ s'.Concluded p (i, c, o) := by
  have hsane := hs.arises.sane
  have hoffers := (hs.offers hsite).continues h.toContinues
  refine (ensures_callAll_performed hoffers fun callee hcallee => ?_).mono
    fun _ s' ⟨h', hperformed⟩ => ?_
  · have hmakes : s.Makes p site c o callee := by
      refine .inl ⟨?_, found, hcallee, s₂, hfound⟩
      rwa [hsane.sites.dynamic_id hsite]
    exact hmakes.mono (h.history.retains hsane) (h.history.precedes hsane) hsane
  · have hconcludes := h.trans h'
    exact ⟨hconcludes, concluded_of_callees hsite hs.known hfound hne
      (hconcludes.history.retains hsane) hperformed⟩

/-- A dispatch without a callee is left. -/
theorem concludes_postpone {s₂ : State} (hs : s.Admits p (i, c, o))
    (hsite : s.calls.sites.dynamic? i = some site) (h : s.Concludes p s₂)
    (hfound : callees p site o s = .ok [] s₂) :
    Ensures (postpone (i, c, o)) s₂ fun _ s' =>
      s.Concludes p s' ∧ s'.Concluded p (i, c, o) := by
  have hsane := hs.arises.sane
  have hs₂ := hs.continues h.toContinues
  have hsite₂ := (h.history.retains hsane).calls.sites.dynamic? hsite
  have hturn : s₂.Turn p .dispatch { s₂ with unresolved := s₂.unresolved.push (i, c, o) } :=
    .postpone hs₂.known hsite₂ nofun
  have hpush : s₂.Concludes p { s₂ with unresolved := s₂.unresolved.push (i, c, o) } := by
    refine ⟨hturn.continues rfl rfl fun hone _ => { unresolved := fun e he => ?_ },
      fun _ hd => Array.mem_push_of_mem _ hd, fun _ _ hd => .inl hd, fun _ _ hd => .inl hd⟩
    refine (Array.mem_push.1 he).imp_right ?_
    rintro rfl
    exact hs₂.live hone
  have hconcludes := h.trans hpush
  refine ensures_modify ⟨hconcludes, fun _ _ _ => Array.mem_push_self, fun site' callee hsite' hresolves => ?_⟩
  have hr := hconcludes.history.retains hsane
  cases Option.some.inj ((hr.calls.sites.dynamic? hsite).symm.trans hsite')
  obtain ⟨found, hmem, t, hfound'⟩ := (hr.resolvesTo_iff hs.known.2).2 hresolves
  rw [hfound] at hfound'
  cases hfound'
  cases hmem

/-- The callees of a dispatch are found without an effect on the calls. -/
theorem ensures_callees_bind {β : Type} {f : List MethodId → Run β} {R : β → State → Prop}
    (hs : s.Admits p (i, c, o)) (hsite : s.calls.sites.dynamic? i = some site)
    (h : ∀ found s₂, s.Concludes p s₂ → callees p site o s = .ok found s₂ →
      Ensures (f found) s₂ R) : Ensures (callees p site o >>= f) s R := by
  refine ensures_bind (concludes_of_stays (hs.offers hsite).serves walks_callees
    stays_callees).runs ?_
  rintro found s₂ ⟨h₂, hfound⟩
  exact h found s₂ h₂ hfound

theorem concludes_dispatch : Follows (Admits p (i, c, o)) (Concludes p) (dispatch p i c o) := by
  refine concludes_dispatchWith fun site s₁ hs₁ hclaimed hsite => ?_
  refine ensures_callees_bind hs₁ hsite fun found s₂ h₂ hfound => ?_
  split
  · exact ensures_bind (concludes_postpone hs₁ hsite h₂ hfound) fun _ _ h' => ensures_pure h'
  · next hne => exact concludes_callAll_found hs₁ hclaimed hsite h₂ hfound hne

theorem concludes_dispatchUnknown :
    Follows (Admits p (i, c, o)) (Concludes p) (dispatchUnknown p i c o) := by
  refine concludes_dispatchWith fun site s₁ hs₁ hclaimed hsite => ?_
  refine ensures_callees_bind hs₁ hsite fun found s₂ h₂ hfound => ?_
  split
  · refine ensures_bind (concludes_postpone hs₁ hsite h₂ hfound) ?_
    rintro _ s₃ ⟨h₃, hconcluded⟩
    have hs₃ := hs₁.continues h₃.toContinues
    refine (concludes_callThroughField s₃ ((hs₁.offers hsite).continues h₃.toContinues)).mono ?_
    intro _ s' h'
    exact ⟨h₃.trans h', hconcluded.mono h'.history hs₃.arises.sane hs₃.known h'.unresolved⟩
  · next hne => exact concludes_callAll_found hs₁ hclaimed hsite h₂ hfound hne

/-- A call with a known callee is an act. -/
theorem continues_call {site : StaticSite} {object : Option NodeId} (hs : s.Arises p)
    (hc : s.contexts.Has c) (hsite : s.calls.sites.static? site.id = some site)
    (hobject : ∀ o ∈ object, o.index < s.graph.nodes.size)
    (hcallee : p.scene.OneBody → s.Runs site.caller ∧ s.Reaches site.callee) :
    Ensures (call p site c object) s fun _ t => s.Steps p .dispatch t ∧ s.Continues p t ∧
      s.Places p site c object t := by
  refine (walks_call (w := .dispatch) nofun (by decide) s (hs.sane.serves_call hc hsite)).runs.mono ?_
  rintro new t ⟨h, hrun⟩
  have hplaces : s.Places p site c object t := ⟨hsite, hc, hobject, new, hrun⟩
  refine ⟨h, ⟨.single (.call hplaces), fun hone hgrounded => ?_⟩, hplaces⟩
  obtain ⟨hruns, hreached⟩ := hcallee hone
  exact ((grounds_call hgrounded hc ⟨hsite, hruns⟩ (.inl hreached)).1 hrun).grounded hgrounded

/-- A call with a known callee is no dispatch that could be left. -/
theorem concludes_dispatchInstance (hs : s.Admits p (i, c, o)) (hi : s.calls.IsStatic i)
    (hcallee : p.scene.OneBody →
      ∃ site, s.calls.sites.static? i = some site ∧ s.Reaches site.callee) :
    Ensures (dispatchInstance p i c o) s fun _ s' => s.Concludes p s' := by
  refine concludes_claim_bind hs fun s₁ hs₁ hadmits => ensures_get_bind ?_
  subst hs₁
  obtain ⟨site, hsite⟩ := hi
  simp only [hsite]
  refine (continues_call hadmits.arises hadmits.known.1.2
    (hadmits.arises.sane.sites.static_id hsite ▸ hsite) ?_ fun hone => ?_).mono ?_
  · rintro _ ⟨⟩
    exact hadmits.known.2
  · obtain ⟨site', hsite', hreached⟩ := hcallee hone
    cases Option.some.inj (hsite'.symm.trans hsite)
    obtain ⟨x, hx, hruns⟩ := hadmits.live hone
    cases Option.some.inj (hx.symm.trans (SiteTable.static?_eq_some.1 hsite))
    exact ⟨hruns, hreached⟩
  · rintro _ s' ⟨hsteps, hcontinues, -⟩
    refine ⟨hcontinues.concludes hsteps.tables, concluded_of_dynamic?_eq_none ?_⟩
    have hstatic := hsteps.turns.evolves.sites.static? hsite
    rw [SiteTable.static?_eq_some] at hstatic
    rw [SiteTable.dynamic?, hstatic]

/-- What the calls that are attached to a pointer rely on. -/
structure AdmitsAll (p : Problem) (info : PointerInfo) (objects : List NodeId) (s : State) :
    Prop where
  arises : s.Arises p
  admits : ∀ o ∈ objects, ∀ d ∈ info.calls, s.Admits p (d.1, d.2, o)
  static : ∀ d ∈ info.instanceCalls, s.calls.IsStatic d.1
  reached : p.scene.OneBody → ∀ d ∈ info.instanceCalls,
    ∃ site, s.calls.sites.static? d.1 = some site ∧ s.Reaches site.callee

instance {info : PointerInfo} {objects : List NodeId} :
    Preserves (AdmitsAll p info objects) (Concludes p) where
  preserves := by
    intro s s' h hs
    have hr := h.history.retains hs.arises.sane
    refine ⟨hs.arises.continues h.toContinues, fun o ho d hd => ?_, fun d hd => ?_, fun hone d hd => ?_⟩
    · exact (hs.admits o ho d hd).continues h.toContinues
    · exact (hs.static d hd).mono hr.calls.sites
    · obtain ⟨site, hsite, hreached⟩ := hs.reached hone d hd
      exact ⟨site, hr.calls.sites.static? hsite,
        hreached.mono (h.history.advances hs.arises.sane)⟩

theorem concludes_serve {info : PointerInfo} {objects : List NodeId} (ho : o ∈ objects) :
    Follows (AdmitsAll p info objects) (Concludes p) (serve p info o) := by
  refine .bind (fun s hs => ?_) fun a => ?_
  · exact concludes_of_stays hs.arises.sane.serves (walks_node o) (stays_node o)
  split
  · exact .pure []
  refine .bind (.mapM fun d hd s hs => ?_) fun _ => .bind (.mapM fun d hd s hs => ?_) fun _ =>
    .bind (.mapM fun d hd s hs => ?_) fun _ => .pure _
  · exact concludes_dispatch s (hs.admits o ho d (by simp [PointerInfo.calls, hd]))
  · exact concludes_dispatchUnknown s (hs.admits o ho d (by simp [PointerInfo.calls, hd]))
  · exact concludes_dispatchInstance (hs.admits o ho d (by simp [PointerInfo.calls, hd]))
      (hs.static d hd) fun hone => hs.reached hone d hd

theorem concludes_receive {n : NodeId} {objects : List NodeId} (hs : s.Arises p)
    (hrange : ∀ o ∈ objects, o.index < s.graph.nodes.size) :
    Ensures (receive p n objects) s fun _ s' => s.Concludes p s' := by
  refine ensures_node_bind fun a ha => ?_
  split
  · exact ensures_pure (.refl s)
  next info hinfo =>
  have hrecorded := hs.sane.recorded
  have hadmits : AdmitsAll p info objects s := by
    refine ⟨hs, fun o ho d hd => ?_, fun d hd => hrecorded.waiting n d ⟨a, info, ha, hinfo, hd⟩,
      fun hone d hd => (hs.grounded hone).tracked.waiting n d ⟨a, info, ha, hinfo, hd⟩⟩
    have hregisters := registers_iff_attaches.2 ⟨a, info, ha, hinfo, hd⟩
    exact ⟨hs, ⟨hrecorded.registered n d hregisters, hrange o ho⟩,
      fun hone => (hs.grounded hone).tracked.registered n d hregisters⟩
  exact Follows.bind (.mapM fun o ho => concludes_serve ho) (fun _ => .pure _) s hadmits

/-- What the new attempts rely on. -/
def AdmitsEach (p : Problem) (ds : List Dispatch) (s : State) : Prop := ∀ d ∈ ds, s.Admits p d

instance {ds : List Dispatch} : Preserves (AdmitsEach p ds) (Concludes p) :=
  ⟨fun s s' h hs d hd => Preserves.preserves s s' h (hs d hd)⟩

theorem concludes_retry (hs : s.Arises p) :
    Ensures (retry p) s fun _ s' => s.Concludes p s' := by
  refine ensures_get_bind ?_
  have hadmits : AdmitsEach p s.unresolved.toList s := by
    intro d hd
    have hmem := Array.mem_toList_iff.1 hd
    exact ⟨hs, hs.sane.recorded.unresolved d hmem,
      fun hone => (hs.grounded hone).tracked.unresolved d hmem⟩
  refine Follows.bind (P := AdmitsEach p s.unresolved.toList) (.mapM fun d hd t ht => ?_)
    (fun _ => .pure _) s hadmits
  refine ensures_get_bind ?_
  split
  · exact ensures_pure (.refl t)
  · next site hsite => exact concludes_callThroughField t ((ht d hd).offers hsite)

end Run

namespace State

variable {p : Problem} {s t t' : State} {site : DynamicSite} {c : ContextId} {o : NodeId}
  {callee : MethodId}

theorem Resolution.history (h : s.Resolution p site c o callee t t') : t.History p s := by
  obtain ⟨a, new, ha, hrun⟩ := h.run
  exact ((Run.ensures_callOn_made h.past h.context h.filed ha.lt_size).1 hrun).1.trans h.future

theorem Resolution.retains (h : s.Resolution p site c o callee t t') : t.Retains p s :=
  h.history.retains (Problem.sane_of_history h.past)

theorem Resolution.not_reaches (h : s.Resolution p site c o callee t t')
    (hnever : s.calls.reaches callee site.caller = false) :
    t.calls.reaches callee site.caller = false := by
  rw [← Bool.not_eq_true] at hnever ⊢
  exact fun hback => hnever (h.retains.calls.reaches hback)

/-- If the callee does not lead back to the caller when a call is resolved, the call is made. -/
theorem Resolution.made (h : s.Resolution p site c o callee t t')
    (hback : t.calls.reaches callee site.caller = false) :
    ∃ i, s.calls.sites.static? i = some (site.resolved i callee) ∧
      s.Made p (site.resolved i callee) c (some o) := by
  obtain ⟨a, new, ha, hrun⟩ := h.run
  obtain ⟨hcall, hreaches | ⟨i, hi, hmade⟩⟩ :=
    (Run.ensures_callOn_made h.past h.context h.filed ha.lt_size).1 hrun
  · rw [hback] at hreaches
    cases hreaches
  · have hr := h.future.retains (hcall.sane (Problem.sane_of_history h.past))
    exact ⟨i, hr.calls.sites.static? hi, hmade.mono h.future⟩

/-- What leads back to the caller when a call is resolved does so ever after. -/
theorem Performed.reaches_or_made (h : s.Performed p site c o callee) :
    s.calls.reaches callee site.caller = true ∨
      ∃ i, s.calls.sites.static? i = some (site.resolved i callee) ∧
        s.Made p (site.resolved i callee) c (some o) := by
  obtain ⟨t, t', hres, hmade⟩ := h
  exact hmade.imp_left hres.retains.calls.reaches

/-- A call that has been made is connected with its callee, unless a model has taken it over. -/
theorem Made.wired {site : StaticSite} {object : Option NodeId} (h : s.Made p site c object)
    (hbody : p.HasBody site.callee) :
    s.Modelled p site object ∨ ∃ c' offset, s.Wired p site c object c' offset := by
  obtain ⟨t, t', hbefore, hplaces, hafter⟩ := h
  have ht := Problem.sane_of_history hbefore
  obtain ⟨new, hrun⟩ := hplaces.run
  obtain ⟨hsteps, hwired⟩ := (Run.ensures_call (w := .dispatch) (by rintro ⟨⟩) (by rintro ⟨⟩)
    (ht.serves_call hplaces.context hplaces.filed)).1 hrun
  have hr : t'.Retains p s := hafter.retains (hsteps.sane ht)
  refine (hwired hbody).imp (((hsteps.retains ht).trans hr).modelled_iff hplaces.known).1 ?_
  rintro ⟨c', offset, hc'⟩
  exact ⟨c', offset, hc'.retains hr⟩

theorem Resolution.wired (h : s.Resolution p site c o callee t t')
    (hback : t.calls.reaches callee site.caller = false) (hbody : p.HasBody callee) :
    ∃ i, s.calls.sites.static? i = some (site.resolved i callee) ∧
      (s.Modelled p (site.resolved i callee) (some o) ∨
        ∃ c' offset, s.Wired p (site.resolved i callee) c (some o) c' offset) := by
  obtain ⟨i, hi, hmade⟩ := h.made hback
  exact ⟨i, hi, hmade.wired hbody⟩

end State

end PointsTo
