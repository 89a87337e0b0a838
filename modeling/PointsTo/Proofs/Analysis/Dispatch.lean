import PointsTo.Proofs.Analysis.Connected
import PointsTo.Proofs.Analysis.Models

/-! The dispatch of calls: what it is made of, and that it is complete for the objects at hand. -/
namespace PointsTo

namespace State

/-- An object has a field that bears the name of a call, and the functions in it have been
called. -/
def FieldDone (s : State) (site : DynamicSite) (c : ContextId) (o : NodeId) : Prop :=
  site.signature.name ≠ Name.pointerCall → ¬ s.graph.IsFunction o →
    ∃ x, s.graph.IsField x o (.named site.signature.name) ∧ ∀ f, s.points.Has x f →
      s.graph.IsFunction f → (site.id, c, f) ∈ s.fieldDispatched

/-- No dispatch that was left has anything to call through a field. -/
def Retried (s : State) : Prop :=
  ∀ d ∈ s.unresolved, ∀ site, s.calls.sites.dynamic? d.1 = some site →
    s.FieldDone site d.2.1 d.2.2

variable {p : Problem} {w : Phase} {s s' s'' : State} {site : DynamicSite} {c : ContextId}
  {o : NodeId}

/-- Turns after which something more waits for the next round only if something was learned. -/
structure Moves (p : Problem) (w : Phase) (s s' : State) : Prop where
  turns : s.Turns p w s'
  learns : s'.hasPending = s.hasPending ∨ s.Learns s'

theorem Moves.refl : s.Moves p w s := ⟨.refl, .inl rfl⟩

theorem Moves.trans (h : s.Moves p w s') (h' : s'.Moves p w s'') (hs : s.Sane p) :
    s.Moves p w s'' where
  turns := h.turns.trans h'.turns
  learns := by
    rcases h.learns with hsame | hlearns
    · rcases h'.learns with hsame' | hlearns
      · exact .inl (hsame'.trans hsame)
      · exact .inr ((h.turns.precedes hs).learns hlearns)
    · exact .inr (hlearns.precedes (h'.turns.precedes (h.turns.sane_and_le hs).1))

theorem FieldDone.evolves (h : s.FieldDone site c o) (he : Evolves w s s') (hs : s.Sound p) :
    s'.FieldDone site c o := by
  intro hname hfun
  obtain ⟨x, hx, hall⟩ := h hname fun ho => hfun (he.graph.isFunction ho)
  refine ⟨x, he.graph.isField hx, fun f hf hff => he.fieldDispatched _ ?_⟩
  rw [he.points] at hf
  exact hall f hf (he.graph.isFunction_of_lt (hs.objects x f hf) hff)

end State

namespace Run
open State

variable {p : Problem} {w : Phase} {k : Caller} {s : State} {site : DynamicSite} {c : ContextId}
  {o : NodeId}

/-- A call is made for a callee after its site is resolved to the callee and, if it does more than
bind, the edge is added. A callee that leads back to the caller is not called. -/
theorem ensures_callOn_of {b : Bool} {callee : MethodId} {R : List NodeId → State → Prop}
    (hs : s.calls.sites.Valid) (hsite : s.calls.sites.dynamic? site.id = some site)
    (h : ∀ i s₁ s₂, s₁ = { s with
        calls := { s.calls with sites := (s.calls.sites.resolve site.id callee).2 } } →
      s₁.calls.sites.static? i = some (site.resolved i callee) →
      (b = true ∧ s₂ = s₁ ∨ b = false ∧
        s₂ = { s₁ with calls := (s₁.calls.addEdge i site.caller callee .dynamic).2 }) →
      (s₁.calls.reaches callee site.caller = true → R [] s₂) ∧
        Ensures (call p (site.resolved i callee) c (some o)) s₂ R) :
    Ensures (callOn p site c o b callee) s R := by
  obtain ⟨i, hi⟩ := SiteTable.exists_resolve (m := callee) hsite
  obtain ⟨site', hsite', hresolved⟩ := SiteTable.static?_of_resolve hs hi
  cases Option.some.inj (hsite'.symm.trans hsite)
  refine ensures_bind (Q := fun i? s₁ => i? = some i ∧ s₁ = { s with
    calls := { s.calls with sites := (s.calls.sites.resolve site.id callee).2 } })
    (ensures_modifyGet ⟨hi, rfl⟩) ?_
  rintro _ s₁ ⟨rfl, heq⟩
  have hresolved : s₁.calls.sites.static? i = some (site.resolved i callee) := heq ▸ hresolved
  refine ensures_get_bind ?_
  cases b with
  | true =>
    refine ensures_get_bind ?_
    rw [hresolved]
    exact (h i s₁ s₁ heq hresolved (.inl ⟨rfl, rfl⟩)).2
  | false =>
    refine ensures_bind (Q := fun _ s₂ => s₂ = { s₁ with
      calls := (s₁.calls.addEdge i site.caller callee .dynamic).2 }) (ensures_modify rfl) ?_
    rintro _ s₂ heq₂
    obtain ⟨hback, hcall⟩ := h i s₁ s₂ heq hresolved (.inr ⟨rfl, heq₂⟩)
    split
    · next hreaches => exact ensures_pure (hback hreaches)
    · have hgrows : s₁.calls.Grows p.scene s₂.calls := heq₂ ▸ CallGraph.addEdge_grows
      refine ensures_get_bind ?_
      rw [hgrows.sites.static? hresolved]
      exact hcall

theorem ensures_callOn {binds : Bool} {callee : MethodId} (hx : w ≠ .expansion)
    (hs : s.Serves p ⟨c, none⟩) (hsite : s.calls.sites.dynamic? site.id = some site)
    (hw : w = .quiet → site.target = none) :
    Ensures (callOn p site c o binds callee) s fun _ s' => s.Steps p w s' := by
  refine ensures_callOn_of hs.1.sites hsite fun i s₁ s₂ heq hresolved hedge => ?_
  have h₁ : s.Steps p w s₁ :=
    heq ▸ .single (.calls (CallGraph.grows_sites SiteTable.resolve_grows))
  have h₂ : s₁.Steps p w s₂ := by
    rcases hedge with ⟨-, rfl⟩ | ⟨-, rfl⟩
    · exact .refl
    · exact .single (.calls CallGraph.addEdge_grows)
  have hsteps : s.Steps p w s₂ := h₁.trans h₂
  refine ⟨fun _ => hsteps, ?_⟩
  have hs₂ := hsteps.serves hs
  have hknows := hs₂.2.at_site
    (hs₂.1.sites.static_lt_size (h₂.turns.evolves.sites.static? hresolved))
  exact Ensures.mono (walks_call hw hx s₂ ⟨hs₂.1, hknows⟩) fun _ _ h' => hsteps.trans h'

theorem ensures_callAll {callees : List MethodId} (hx : w ≠ .expansion)
    (hs : s.Serves p ⟨c, none⟩) (hsite : s.calls.sites.dynamic? site.id = some site)
    (hw : w = .quiet → site.target = none) :
    Ensures (callAll p site c o callees) s fun _ s' => s.Steps p w s' := by
  refine ensures_node_bind fun a _ => ?_
  refine ensures_bind (ensures_mapM_each (I := fun s' => s.Steps p w s') (P := fun _ _ => True)
    callees .refl ?_) fun _ _ h' => ensures_pure h'.1
  intro callee _ s₁ h₁
  exact (ensures_callOn hx (h₁.serves hs) (h₁.turns.evolves.sites.dynamic? hsite) hw).mono
    fun _ _ h' => ⟨h₁.trans h', trivial, fun _ _ => trivial⟩

/-- Whether the functions among the objects of a field have been called. -/
theorem ensures_callFunction {f : NodeId} (hx : w ≠ .expansion)
    (hs : s.Serves p ⟨c, none⟩) (hsite : s.calls.sites.dynamic? site.id = some site)
    (hw : w = .quiet → s.graph.IsFunction f →
      site.target = none ∨ (site.id, c, f) ∈ s.fieldDispatched) :
    Ensures (do
      match (← node f).function? with
      | none => return []
      | some info =>
        let key : Dispatch := (site.id, c, f)
        if (← get).fieldDispatched.contains key then return []
        modify fun s => { s with fieldDispatched := s.fieldDispatched.insert key }
        callAll p site c f [info.method] : Run (List NodeId)) s fun _ s' =>
      s.Moves p w s' ∧ s'.unresolved = s.unresolved ∧
        (s.graph.IsFunction f → (site.id, c, f) ∈ s'.fieldDispatched) := by
  refine ensures_node_bind fun a ha => ?_
  cases hfun : a.function? with
  | none =>
    refine ensures_pure ⟨.refl, rfl, ?_⟩
    rintro ⟨a', ha', hf⟩
    cases Option.some.inj (ha'.symm.trans ha)
    simp [Node.isFunction, hfun] at hf
  | some info =>
    refine ensures_get_bind ?_
    split
    · next hmem => exact ensures_pure ⟨.refl, rfl, fun _ => Std.TreeSet.contains_iff_mem.1 hmem⟩
    · next hmem =>
      rw [Std.TreeSet.contains_iff_mem] at hmem
      have hd : s.extent.HasDispatch (site.id, c, f) :=
        ⟨⟨SiteTable.lt_size_of_dynamic? hsite, hs.2.1⟩, ha.lt_size⟩
      have h₁ : s.Turn p w { s with fieldDispatched := s.fieldDispatched.insert (site.id, c, f) } :=
        .throughField hd
      refine ensures_modify_bind ?_
      have hs₁ := (h₁.sane hs.1).1
      refine (ensures_callAll (w := w) hx ⟨hs₁, hs.2⟩ hsite fun hq => ?_).mono fun _ s' h' => ?_
      · refine (hw hq ⟨a, ha, ?_⟩).resolve_right hmem
        simp [Node.isFunction, hfun]
      · obtain ⟨-, hun', hfield'⟩ := h'.tables
        have hmem' : (site.id, c, f) ∈ s'.fieldDispatched :=
          hfield' ▸ (mem_insert ..).2 (.inl rfl)
        exact ⟨⟨.head h₁ h'.turns, .inr ⟨.fieldDispatched _, hmem', hmem⟩⟩, hun', fun _ => hmem'⟩

theorem ensures_callThroughField (hcalls : w ≠ .expansion) (hs : s.Sound p) (hc : s.contexts.Has c)
    (hsite : s.calls.sites.dynamic? site.id = some site)
    (hw : w = .quiet → site.target = none ∨ s.FieldDone site c o) :
    Ensures (callThroughField p site c o) s fun _ s' =>
      s.Moves p w s' ∧ s'.unresolved = s.unresolved ∧ s'.FieldDone site c o := by
  unfold callThroughField
  split
  · next hname => exact ensures_pure ⟨.refl, rfl, fun h => absurd hname h⟩
  next hname =>
  refine ensures_node_bind fun a ha => ?_
  split
  · next hfun => exact ensures_pure ⟨.refl, rfl, fun _ h => absurd ⟨a, ha, hfun⟩ h⟩
  next hfun =>
  have hnot : ¬ s.graph.IsFunction o := by
    rintro ⟨a', ha', hf⟩
    cases Option.some.inj (ha'.symm.trans ha)
    exact hfun hf
  refine ensures_bind (Q := fun x s₁ => s.Step p w s₁ ∧ s₁.hasPending = s.hasPending ∧
    s₁.graph.IsField x o (.named site.signature.name)) ?_ ?_
  · refine (ensures_grow (FlowGraph.ensures_objectField hs.graph)).mono ?_
    rintro x _ ⟨g, rfl, hg, hx, -⟩
    exact ⟨.nodes hg, rfl, hx⟩
  rintro x s₁ ⟨h₁, hpending, hx⟩
  have hs₁ := h₁.sound hs
  have hmoves : s.Moves p w s₁ := ⟨.single (.step h₁), .inl hpending⟩
  have hserves₁ : s₁.Serves p ⟨c, none⟩ :=
    Steps.serves (.single h₁) ⟨hs.toSane, hc, by simp⟩
  refine ensures_get_bind (ensures_bind (ensures_mapM_each
    (I := fun t => s₁.Moves p w t ∧ t.unresolved = s.unresolved)
    (P := fun f t => s₁.graph.IsFunction f → (site.id, c, f) ∈ t.fieldDispatched)
    _ ⟨.refl, h₁.tables.2.1⟩ ?_) ?_)
  · intro f hf t ⟨ht, hun⟩
    have hev := ht.turns.evolves
    have hhas : s₁.points.Has x f := Collection.mem_enumerate.1 hf
    refine (ensures_callFunction (w := w) hcalls (ht.turns.serves hserves₁)
      (hev.sites.dynamic? (h₁.sites.dynamic? hsite)) fun hq hfun => ?_).mono fun _ t' ht' => ?_
    · refine (hw hq).imp_right fun hdone => hev.fieldDispatched _ ?_
      have hdone₁ := hdone.evolves h₁.evolves hs
      have hfun₁ := hev.graph.isFunction_of_lt (hs₁.objects x f hhas) hfun
      obtain ⟨y, hy, hall⟩ := hdone₁ hname fun ho =>
        hnot (h₁.persists.isFunction_of_lt ha.lt_size ho)
      obtain rfl : y = x := hy.unique hx
      exact hall f hhas hfun₁
    · obtain ⟨ht', hun', hfield⟩ := ht'
      exact ⟨⟨ht.trans ht' hs₁.toSane, hun'.trans hun⟩, fun h => hfield (hev.graph.isFunction h),
        fun y hy h => ht'.turns.evolves.fieldDispatched _ (hy h)⟩
  · rintro _ s' ⟨⟨ht, hun⟩, hall, -⟩
    have hev := ht.turns.evolves
    refine ensures_pure ⟨hmoves.trans ht hs.toSane, hun, fun _ _ =>
      ⟨x, hev.graph.isField hx, fun f hf hff => ?_⟩⟩
    rw [hev.points] at hf
    exact hall f (Collection.mem_enumerate.2 hf)
      (hev.graph.isFunction_of_lt (hs₁.objects _ f hf) hff)

/-- A dispatch is resolved once; what follows happens at the first time only. -/
theorem ensures_claim_bind {i : SiteId} {m : Run (List NodeId)} (hs : s.Sound p)
    (hd : s.extent.HasDispatch (i, c, o))
    (h : (i, c, o) ∉ s.resolved → ∀ s₁, s.Turn p w s₁ → s₁.Sound p → s₁.calls = s.calls →
      s₁.Serves p ⟨c, none⟩ → s₁.extent.HasDispatch (i, c, o) → (i, c, o) ∈ s₁.resolved →
      Ensures m s₁ fun _ s' => s₁.Turns p w s') :
    Ensures (do if !(← claim (i, c, o)) then return [] else m) s fun _ s' =>
      s.Moves p w s' ∧ (i, c, o) ∈ s'.resolved := by
  refine ensures_modifyGet_bind ?_
  have h₁ : s.Turn p w { s with resolved := s.resolved.insert (i, c, o) } := .claim hd
  have hmem : (i, c, o) ∈ s.resolved.insert (i, c, o) := (mem_insert ..).2 (.inl rfl)
  split
  · exact ensures_pure ⟨⟨.single h₁, .inl rfl⟩, hmem⟩
  · next hnew =>
    have hnew : (i, c, o) ∉ s.resolved := by simpa using hnew
    have hs₁ := h₁.sound hs
    refine (h hnew _ h₁ hs₁ rfl ⟨hs₁.toSane, hd.1.2, by simp⟩ hd hmem).mono fun _ s' h' => ?_
    have hmem' := h'.evolves.resolved _ hmem
    exact ⟨⟨.head h₁ h', .inr ⟨.resolved _, hmem', hnew⟩⟩, hmem'⟩

theorem ensures_dispatchWith {i : SiteId} {rule : DynamicSite → Run (List NodeId)}
    (hs : s.Sound p) (hd : s.extent.HasDispatch (i, c, o))
    (hw : w = .quiet → (i, c, o) ∈ s.resolved ∨ s.Mute i)
    (hrule : ∀ site (s₁ : State), s₁.Sound p → s₁.Serves p ⟨c, none⟩ →
      s₁.extent.HasDispatch (i, c, o) → s₁.calls.sites.dynamic? i = some site →
      (w = .quiet → s₁.Mute i) →
      Ensures (rule site) s₁ fun _ s' => s₁.Turns p w s') :
    Ensures (dispatchWith i c o rule) s fun _ s' =>
      s.Moves p w s' ∧ (i, c, o) ∈ s'.resolved := by
  refine ensures_claim_bind hs hd fun hnew s₁ h₁ hs₁ hcalls hserves hd₁ hmem => ?_
  refine ensures_get_bind ?_
  split
  · exact ensures_pure .refl
  next site hsite =>
  refine hrule site s₁ hs₁ hserves hd₁ hsite fun hq => ?_
  rw [Mute, hcalls]
  exact (hw hq).resolve_left hnew

theorem walks_callbackOf {a : CallArg} : Walks p w k (callbackOf p a) := by
  unfold callbackOf
  split
  · exact .pure none
  refine .bind (walks_lift _) fun value => ?_
  split
  · exact .pure _
  refine .bind (walks_lift _) fun type => ?_
  split <;> exact .pure _

theorem walks_classCallee {owner : Option String} {name : String} :
    Walks p w k (classCallee p owner name) := by
  unfold classCallee
  split
  · exact walks_scan _
  · exact .pure none

theorem walks_calleesByClass {owner : Option String} :
    Walks p w k (calleesByClass p site owner) := by
  refine .bind walks_classCallee fun callee? => ?_
  split
  · exact .pure _
  split
  · exact .pure _
  split
  · exact .pure []
  · exact .bind (.mapM fun _ _ => walks_callbackOf) fun _ => .pure _

theorem walks_callees : Walks p w k (callees p site o) := by
  refine .bind (walks_node _) fun a => ?_
  split
  · split
    · exact .pure _
    · exact walks_calleesByClass
  · exact walks_calleesByClass

section Found

variable {i : SiteId} {found : List MethodId} {s' : State}

/-- A dispatch without a callee is left. -/
theorem ensures_postpone (hs : s.Sound p) (hd : s.extent.HasDispatch (i, c, o))
    (hsite : s.calls.sites.dynamic? i = some site) (hw : w = .quiet → s.Mute i)
    (h : s.Steps p w s') : Ensures (postpone (i, c, o)) s' fun _ s'' => s.Turns p w s'' := by
  have hev := h.turns.evolves
  exact ensures_modify (h.turns.tail (.postpone (hd.mono (h.extent_le hs.toSane))
    (hev.sites.dynamic? hsite) fun hq => (hw hq).mono hev.sites))

theorem ensures_callAll_found (hx : w ≠ .expansion) (hs : s.Sound p)
    (hserves : s.Serves p ⟨c, none⟩) (hsite : s.calls.sites.dynamic? i = some site)
    (hw : w = .quiet → site.target = none) (h : s.Steps p w s') :
    Ensures (callAll p site c o found) s' fun _ s'' => s.Turns p w s'' := by
  have hsite' := h.turns.evolves.sites.dynamic? hsite
  rw [← hs.sites.dynamic_id hsite] at hsite'
  exact (ensures_callAll (w := w) hx (h.serves hserves) hsite' hw).mono
    fun _ _ h' => (h.trans h').turns

end Found

theorem ensures_dispatch {i : SiteId} (hx : w ≠ .expansion) (hs : s.Sound p)
    (hd : s.extent.HasDispatch (i, c, o)) (hw : w = .quiet → (i, c, o) ∈ s.resolved ∨ s.Mute i) :
    Ensures (dispatch p i c o) s fun _ s' => s.Moves p w s' ∧ (i, c, o) ∈ s'.resolved := by
  refine ensures_dispatchWith hs hd hw fun site s₁ hs₁ hserves hd₁ hsite hmute => ?_
  refine ensures_bind (walks_callees (w := w) s₁ hserves) fun found s₂ h₂ => ?_
  split
  · exact ensures_bind (ensures_postpone hs₁ hd₁ hsite hmute h₂) fun _ _ h => ensures_pure h
  · exact ensures_callAll_found hx hs₁ hserves hsite (fun hq => (hmute hq).target hsite) h₂

theorem ensures_dispatchUnknown {i : SiteId} (hx : w ≠ .expansion) (hs : s.Sound p)
    (hd : s.extent.HasDispatch (i, c, o))
    (hw : w = .quiet → (i, c, o) ∈ s.resolved ∨ s.Mute i) :
    Ensures (dispatchUnknown p i c o) s fun _ s' => s.Moves p w s' ∧ (i, c, o) ∈ s'.resolved := by
  refine ensures_dispatchWith hs hd hw fun site s₁ hs₁ hserves hd₁ hsite hmute => ?_
  refine ensures_bind (walks_callees (w := w) s₁ hserves) fun found s₂ h₂ => ?_
  split
  · refine ensures_bind (ensures_postpone hs₁ hd₁ hsite hmute h₂) fun _ s₃ h₃ => ?_
    have hsite₃ := h₃.evolves.sites.dynamic? hsite
    rw [← hs₁.sites.dynamic_id hsite] at hsite₃
    exact (ensures_callThroughField hx (h₃.sound hs₁) (h₃.serves hserves).2.1 hsite₃
      fun hq => .inl ((hmute hq).target hsite)).mono fun _ _ h' => h₃.trans h'.1.turns
  · exact ensures_callAll_found hx hs₁ hserves hsite (fun hq => (hmute hq).target hsite) h₂

theorem ensures_dispatchInstance {i : SiteId} (hx : w ≠ .expansion) (hs : s.Sound p)
    (hi : s.calls.IsStatic i) (hd : s.extent.HasDispatch (i, c, o))
    (hw : w = .quiet → (i, c, o) ∈ s.resolved ∨ s.Mute i) :
    Ensures (dispatchInstance p i c o) s fun _ s' =>
      s.Moves p w s' ∧ (i, c, o) ∈ s'.resolved := by
  refine ensures_claim_bind hs hd fun hnew s₁ h₁ hs₁ hcalls hserves _ hmem => ?_
  obtain ⟨site, hsite⟩ := hi
  rw [← hcalls] at hsite
  have hq : w ≠ .quiet := by
    intro hq
    obtain ⟨site', hsite', -⟩ := (hw hq).resolve_left hnew
    rw [← hcalls, SiteTable.dynamic?_eq_some, SiteTable.static?_eq_some.1 hsite] at hsite'
    cases hsite'
  refine ensures_get_bind ?_
  rw [hsite]
  have hknows := hserves.2.at_site (hserves.1.sites.static_lt_size hsite)
  exact Ensures.mono (walks_call (absurd · hq) hx s₁ ⟨hserves.1, hknows⟩)
    fun _ s' (h' : s₁.Steps p w s') => h'.turns

/-- A list of calls is resolved one by one. -/
theorem ensures_dispatchAll {l : List (SiteId × ContextId)}
    {f : SiteId × ContextId → Run (List NodeId)}
    (hf : ∀ d ∈ l, ∀ s₁, s.Moves p w s₁ → s₁.Sound p → s₁.extent.HasDispatch (d.1, d.2, o) →
      (w = .quiet → (d.1, d.2, o) ∈ s₁.resolved ∨ s₁.Mute d.1) →
      Ensures (f d) s₁ fun _ s' => s₁.Moves p w s' ∧ (d.1, d.2, o) ∈ s'.resolved)
    (hs : s.Sound p) (hl : ∀ d ∈ l, s.extent.HasDispatch (d.1, d.2, o))
    (hw : w = .quiet → ∀ d ∈ l, (d.1, d.2, o) ∈ s.resolved ∨ s.Mute d.1) :
    Ensures (l.mapM f) s fun _ s' =>
      s.Moves p w s' ∧ ∀ d ∈ l, (d.1, d.2, o) ∈ s'.resolved := by
  refine (ensures_mapM_each (I := fun t => s.Moves p w t)
    (P := fun d t => (d.1, d.2, o) ∈ t.resolved) l .refl ?_).mono fun _ _ h => ⟨h.1, h.2.1⟩
  intro d hd t ht
  have hev := ht.turns.evolves
  have hle := ht.turns.extent_le hs.toSane
  refine (hf d hd t ht (ht.turns.sound hs) ((hl d hd).mono hle) fun hq => ?_).mono fun _ t' ht' => ?_
  · exact (hw hq d hd).imp (hev.resolved _) fun hm => hm.mono hev.sites
  · exact ⟨ht.trans ht'.1 hs.toSane, ht'.2, fun e he => ht'.1.turns.evolves.resolved _ he⟩

/-- All calls that are attached to a pointer are resolved for an object. -/
theorem ensures_serve {info : PointerInfo} (hx : w ≠ .expansion) (hs : s.Sound p)
    (hcalls : ∀ d ∈ info.calls, s.extent.HasCall d)
    (hstatic : ∀ d ∈ info.instanceCalls, s.calls.IsStatic d.1)
    (hw : w = .quiet → s.graph.IsObject o → ∀ d ∈ info.calls,
      (d.1, d.2, o) ∈ s.resolved ∨ s.Mute d.1) :
    Ensures (serve p info o) s fun _ s' => s.Moves p w s' ∧
      (s.graph.IsObject o → ∀ d ∈ info.calls, (d.1, d.2, o) ∈ s'.resolved) := by
  refine ensures_node_bind fun a ha => ?_
  split
  · next hobj =>
    refine ensures_pure ⟨.refl, ?_⟩
    rintro ⟨a', ha', hobj'⟩
    cases Option.some.inj (ha'.symm.trans ha)
    simp [hobj'] at hobj
  next hobj =>
  have hobject : s.graph.IsObject o := ⟨a, ha, by simpa using hobj⟩
  have hknown : ∀ (t : State) l, s.Moves p w t → l ⊆ info.calls →
      ∀ d ∈ l, t.extent.HasDispatch (d.1, d.2, o) := by
    intro t l ht hl d hd
    have hdispatch : s.extent.HasDispatch (d.1, d.2, o) := ⟨hcalls d (hl hd), ha.lt_size⟩
    exact hdispatch.mono (ht.turns.extent_le hs.toSane)
  have hlater : ∀ (t : State) l, s.Moves p w t → l ⊆ info.calls →
      w = .quiet → ∀ d ∈ l, (d.1, d.2, o) ∈ t.resolved ∨ t.Mute d.1 := by
    intro t l ht hl hq d hd
    have hev := ht.turns.evolves
    exact (hw hq hobject d (hl hd)).imp (hev.resolved _) fun hm => hm.mono hev.sites
  have hdyn : info.dynamicCalls ⊆ info.calls := by simp [PointerInfo.calls]
  have hunk : info.unknownCalls ⊆ info.calls := by simp [PointerInfo.calls]
  have hins : info.instanceCalls ⊆ info.calls := by simp [PointerInfo.calls]
  refine ensures_bind (ensures_dispatchAll (w := w) (o := o)
    (fun _ _ _ _ ht hd hq => ensures_dispatch hx ht hd hq) hs (hknown s _ .refl hdyn)
    (hlater s _ .refl hdyn)) ?_
  rintro _ s₁ ⟨h₁, hdynamic⟩
  refine ensures_bind (ensures_dispatchAll (w := w) (o := o)
    (fun _ _ _ _ ht hd hq => ensures_dispatchUnknown hx ht hd hq) (h₁.turns.sound hs)
    (hknown s₁ _ h₁ hunk) (hlater s₁ _ h₁ hunk)) ?_
  rintro _ s₂ ⟨h₂, hunknown⟩
  have h₁₂ := h₁.trans h₂ hs.toSane
  refine ensures_bind (ensures_dispatchAll (w := w) (o := o)
    (fun d hd t hmoves ht => ensures_dispatchInstance hx ht ((hstatic d hd).mono
      (h₁₂.turns.trans hmoves.turns).evolves.sites)) (h₁₂.turns.sound hs)
    (hknown s₂ _ h₁₂ hins) (hlater s₂ _ h₁₂ hins)) ?_
  rintro _ s₃ ⟨h₃, hinstance⟩
  refine ensures_pure ⟨h₁₂.trans h₃ hs.toSane, fun _ d hd => ?_⟩
  simp only [PointerInfo.calls, List.mem_append] at hd
  rcases hd with (hd | hd) | hd
  · exact (h₂.turns.trans h₃.turns).evolves.resolved _ (hdynamic d hd)
  · exact h₃.turns.evolves.resolved _ (hunknown d hd)
  · exact hinstance d hd

/-- All calls that are attached to a node are resolved for its new objects. -/
theorem ensures_receive {n : NodeId} {objects : List NodeId} (hx : w ≠ .expansion)
    (hs : s.Sound p)
    (hw : w = .quiet → ∀ o ∈ objects, s.graph.IsObject o → ∀ d, s.graph.Registers n d →
      (d.1, d.2, o) ∈ s.resolved ∨ s.Mute d.1)
    (hrange : ∀ o ∈ objects, o.index < s.graph.nodes.size) :
    Ensures (receive p n objects) s fun _ s' => s.Moves p w s' ∧
      ∀ o ∈ objects, s.graph.IsObject o → ∀ d, s.graph.Registers n d →
        (d.1, d.2, o) ∈ s'.resolved := by
  refine ensures_node_bind fun a ha => ?_
  have hreg : ∀ d, s.graph.Registers n d ↔ ∃ info, a.pointer? = some info ∧ d ∈ info.calls := by
    intro d
    rw [← node_registers_iff]
    constructor
    · rintro ⟨a', ha', hd⟩
      cases Option.some.inj (ha'.symm.trans ha)
      exact hd
    · exact fun hd => ⟨a, ha, hd⟩
  split
  · next hp => exact ensures_pure ⟨.refl, fun o _ _ d hd => by simp [hreg, hp] at hd⟩
  next info hp =>
  have hcalls : ∀ d ∈ info.calls, s.extent.HasCall d :=
    fun d hd => hs.recorded.registered n d ((hreg d).2 ⟨info, hp, hd⟩)
  refine ensures_bind (ensures_mapM_each (I := fun t => s.Moves p w t)
    (P := fun o t => s.graph.IsObject o → ∀ d ∈ info.calls, (d.1, d.2, o) ∈ t.resolved)
    objects .refl ?_) ?_
  · intro o ho t ht
    have hev := ht.turns.evolves
    have hle := ht.turns.extent_le hs.toSane
    have hstatic : ∀ d ∈ info.instanceCalls, t.calls.IsStatic d.1 := fun d hd =>
      (hs.recorded.waiting n d ⟨a, info, ha, hp, hd⟩).mono hev.sites
    refine (ensures_serve (w := w) hx (ht.turns.sound hs) (fun d hd => (hcalls d hd).mono hle)
      hstatic fun hq hobj d hd => ?_).mono fun _ t' ht' => ?_
    · have hobj' := hev.graph.isObject_of_lt (hrange o ho) hobj
      exact (hw hq o ho hobj' d ((hreg d).2 ⟨info, hp, hd⟩)).imp (hev.resolved _)
        fun hm => hm.mono hev.sites
    · exact ⟨ht.trans ht'.1 hs.toSane, fun hobj => ht'.2 (hev.graph.isObject hobj),
        fun y hy hobj d hd => ht'.1.turns.evolves.resolved _ (hy hobj d hd)⟩
  · rintro _ s' ⟨h', hall, -⟩
    refine ensures_pure ⟨h', fun o ho hobj d hd => ?_⟩
    obtain ⟨info', hp', hd⟩ := (hreg d).1 hd
    cases Option.some.inj (hp'.symm.trans hp)
    exact hall o ho hobj d hd

/-- A new attempt leaves nothing to be called through a field. -/
theorem ensures_retry (hx : w ≠ .expansion) (hs : s.Sound p)
    (hw : w = .quiet → ∀ d ∈ s.unresolved, ∀ site, s.calls.sites.dynamic? d.1 = some site →
      site.target = none ∨ s.FieldDone site d.2.1 d.2.2) :
    Ensures (retry p) s fun _ s' => s.Moves p w s' ∧ s'.Retried := by
  refine ensures_get_bind (ensures_bind (ensures_mapM_each
    (I := fun t => s.Moves p w t ∧ t.unresolved = s.unresolved)
    (P := fun d t => ∀ site, s.calls.sites.dynamic? d.1 = some site →
      t.FieldDone site d.2.1 d.2.2)
    s.unresolved.toList ⟨.refl, rfl⟩ ?_) ?_)
  · rintro ⟨i, c, o⟩ hd t ⟨ht, hun⟩
    have hev := ht.turns.evolves
    have hst := ht.turns.sound hs
    have hmem := Array.mem_toList_iff.1 hd
    obtain ⟨site, hsite⟩ := hs.unresolved _ hmem
    refine ensures_get_bind ?_
    dsimp only
    rw [hev.sites.dynamic? hsite]
    have hid : site.id = i := hs.sites.dynamic_id hsite
    have hknown := hev.sites.dynamic? hsite
    rw [← hid] at hknown
    have hd' := (hs.recorded.unresolved _ hmem).mono (ht.turns.extent_le hs.toSane)
    refine (ensures_callThroughField (w := w) hx hst hd'.1.2 hknown fun hq => ?_).mono
      fun _ t' ht' => ?_
    · exact (hw hq _ hmem site hsite).imp_right fun hdone => hdone.evolves hev hs
    · obtain ⟨ht', hun', hdone⟩ := ht'
      refine ⟨⟨ht.trans ht' hs.toSane, hun'.trans hun⟩, fun site' hsite' => ?_, fun y hy site' hsite' => ?_⟩
      · cases Option.some.inj (hsite'.symm.trans hsite)
        exact hdone
      · exact (hy site' hsite').evolves ht'.turns.evolves hst
  · rintro _ s' ⟨⟨h', hun⟩, hall, -⟩
    refine ensures_pure ⟨h', fun d hd site hsite => ?_⟩
    rw [hun] at hd
    obtain ⟨site', hsite'⟩ := hs.unresolved d hd
    cases Option.some.inj ((h'.turns.evolves.sites.dynamic? hsite').symm.trans hsite)
    exact hall d (Array.mem_toList_iff.2 hd) site hsite'

end Run

end PointsTo
