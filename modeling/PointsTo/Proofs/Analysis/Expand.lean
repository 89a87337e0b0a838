import PointsTo.Proofs.Analysis.Connected
import PointsTo.Proofs.Analysis.Models

/-! The instantiation of what is reachable is made of steps, and it is complete: the calls of a body
are connected with their callees, and captured variables with the instances that they have so far. -/
namespace PointsTo

namespace State

variable {p : Problem} {w : Phase} {s s' s'' : State} {capture : Capture}

/-- The instances that a captured variable has in `g` are connected with the local that refers to
the variable under a context. -/
def Linked (p : Problem) (s : State) (g : FlowGraph) (c : ContextId) (capture : Capture) : Prop :=
  ∀ x, g.HasInstance p.scene capture.source x →
    ∃ y, s.graph.nodeOf? p.scene c capture.target = .ok (some y) ∧ s.graph.CopyEdge x y ∧
      (capture.writes = true → s.graph.CopyEdge y x)

/-- The captured variables of all methods that wait for it in `s` are connected in `s'`. -/
def Links (p : Problem) (s s' : State) : Prop :=
  ∀ a ∈ s.links, ∀ capture ∈ (s.captures[a.2]?).getD [], s'.Linked p s.graph a.1 capture

theorem Linked.retains {g : FlowGraph} {c : ContextId} (h : s.Linked p g c capture)
    (hr : s.Retains p s') : s'.Linked p g c capture := by
  intro x hx
  obtain ⟨y, hy, ⟨k, hk, hedge⟩, hwrites⟩ := h x hx
  refine ⟨y, hr.nodeOf _ _ _ hy, ⟨k, hk, hr.graph.edge hedge⟩, fun hw => ?_⟩
  obtain ⟨k', hk', hedge'⟩ := hwrites hw
  exact ⟨k', hk', hr.graph.edge hedge'⟩

/-- The captured variables of a method stay the same. -/
theorem Retains.mem_captures (hr : s.Retains p s') (hs : s.Sane p) {m : MethodId}
    (h : capture ∈ (s.captures[m]?).getD []) : capture ∈ (s'.captures[m]?).getD [] := by
  by_cases hm : m ∈ s.summaries
  · rwa [hr.captures m hm]
  · have hno : m ∉ s.captures := fun h => hm (hs.recorded.captures m h)
    simp [Std.TreeMap.getElem?_eq_none hno] at h

theorem Step.hasInstance (h : s.Step p w s') (hs : s.Sane p) {v : ValueId} {n : NodeId}
    (hn : s.graph.HasInstance p.scene v n) : s'.graph.HasInstance p.scene v n := by
  cases h with
  | records h => cases h <;> exact hn
  | nodes h => exact hn.mono hs.graph h.toAdds.instances h.toAdds.representatives
  | edge | address | attach | mark => exact hn.mono hs.graph (fun _ _ _ h => h) fun _ _ h => h
  | update | calls => exact hn

theorem Steps.hasInstance (h : s.Steps p w s') (hs : s.Sane p) {v : ValueId} {n : NodeId}
    (hn : s.graph.HasInstance p.scene v n) : s'.graph.HasInstance p.scene v n := by
  induction h with
  | refl => exact hn
  | tail h h' ih => exact h'.hasInstance (Steps.sane h hs) ih

/-- Turns of an expansion that leave no body half instantiated. -/
structure Expands (p : Problem) (s s' : State) : Prop where
  turns : s.Turns p .expansion s'
  instances : s.Instances p → s'.Instances p

theorem Expands.refl (s : State) : s.Expands p s := ⟨.refl, id⟩

theorem Expands.trans (h : s.Expands p s') (h' : s'.Expands p s'') : s.Expands p s'' :=
  ⟨h.turns.trans h'.turns, h'.instances ∘ h.instances⟩

theorem Steps.expands (h : s.Steps p .expansion s') (hs : s.Sane p) : s.Expands p s' where
  turns := h.turns
  instances hall := hall.retains (h.retains hs) (h.sane hs) h.instantiated

end State

namespace Run
open State FlowGraph

variable {p : Problem} {s s' : State} {k : Caller} {c : ContextId} {i? : Option SiteId}
  {m : MethodId} {site : DynamicSite} {i : SiteId} {fuel : Nat}

/-- An assignment is in the graph from then on. -/
theorem ensures_instantiateEdge {e : LocalEdge} (hs : s.Sane p) :
    Ensures (instantiateEdge p c e) s fun _ s' => s.Steps p .expansion s' ∧ s'.Assigns p c e := by
  refine ensures_bind (ensures_value (w := .expansion) hs) ?_
  rintro x s₁ ⟨h₁, hx⟩
  have hs₁ := h₁.sane hs
  refine ensures_bind (ensures_value (w := .expansion) hs₁) ?_
  rintro y s₂ ⟨h₂, hy⟩
  have hs₂ := h₂.sane hs₁
  have hfinish : ∀ s', s₂.Steps p .expansion s' ∧ s'.graph.Edge x y e.kind →
      s.Steps p .expansion s' ∧ s'.Assigns p c e := fun s' ⟨h', hedge⟩ =>
    ⟨(h₁.trans h₂).trans h', x, y, ((h₂.trans h').retains hs₁).nodeOf _ _ _ hx,
      (h'.retains hs₂).nodeOf _ _ _ hy, hedge⟩
  split
  · next hk =>
    exact (ensures_address (w := .expansion) (by decide) hs₂).mono
      fun _ s' h' => hfinish s' (hk ▸ h')
  · next hk => exact ensures_discard ((ensures_flow hk hs₂).mono fun _ s' h' => hfinish s' h')

/-- An object that is stored into a field wakes up the base of the field. -/
theorem ensures_store {a b : NodeId} {stmt : Option StmtId} (hs : s.Sane p) :
    Ensures (do
      if (← grow (Growing.addEdge a b .write stmt)).isSome then wakeBase b) s fun _ s' =>
        s.Steps p .expansion s' ∧ s'.graph.Edge a b .write := by
  refine ensures_bind (ensures_grow ensures_addEdge) ?_
  rintro r s₁ ⟨g, rfl, ⟨rfl, hold, rfl⟩ | ⟨rfl, hnew, ha, hb, rfl⟩⟩
  · exact ensures_pure ⟨.refl, hs.graph.tables.hasEdge_iff.1 hold⟩
  · refine ensures_wakeBase.mono ?_
    rintro _ _ ⟨woken, rfl, hmono, hbase⟩
    refine ⟨.single (Step.edge (by decide) hnew ha hb hmono ⟨?_, ?_, fun _ => hbase⟩),
      edge_withEdge.2 (.inr ⟨rfl, rfl, rfl⟩)⟩
    · simp [EdgeKind.isCopyLike]
    · simp

/-- An allocation that is stored in a field is in the graph from then on. -/
theorem ensures_instantiateAllocation {a : FieldAllocation} (hs : s.Sane p) :
    Ensures (instantiateAllocation p c a) s fun _ s' => s.Steps p .expansion s' ∧
      s'.Stores p c a := by
  refine ensures_bind (ensures_value (w := .expansion) hs) ?_
  rintro o s₁ ⟨h₁, ho⟩
  have hs₁ := h₁.sane hs
  refine ensures_bind (ensures_value (w := .expansion) hs₁) ?_
  rintro r s₂ ⟨h₂, hr⟩
  have hs₂ := h₂.sane hs₁
  refine ensures_bind (ensures_grow (FlowGraph.ensures_temporary hs₂.graph)) ?_
  rintro n _ ⟨g, rfl, hg, hn, -⟩
  have h₃ : s₂.Steps p .expansion { s₂ with graph := g } := .single (.nodes hg)
  have hs₃ := h₃.sane hs₂
  obtain ⟨b, hb, hcontext, hlocation⟩ := (hg.consistent.interned ..).1 hn
  refine ensures_bind (ensures_address (w := .expansion) (by decide) hs₃) ?_
  rintro _ s₄ ⟨h₄, haddress⟩
  have hs₄ := h₄.sane hs₃
  refine (ensures_store hs₄).mono fun _ s' ⟨h', hwrite⟩ => ⟨(((h₁.trans h₂).trans h₃).trans h₄).trans h', ?_⟩
  have hr₄ := h'.retains hs₄
  obtain ⟨b', hb', hkeep⟩ := ((h₄.trans h').retains hs₃).graph.nodes _ _ hb
  exact ⟨o, r, n, b', (((h₂.trans h₃).trans (h₄.trans h')).retains hs₁).nodeOf _ _ _ ho,
    ((h₃.trans (h₄.trans h')).retains hs₂).nodeOf _ _ _ hr, hb', hkeep.context.trans hcontext,
    hkeep.location.trans hlocation, hr₄.graph.edge haddress, hwrite⟩

theorem walks_fabricate {object : Synthetic} {owner : String} {v : ValueId} :
    Walks p .expansion k (fabricate p c object owner v) :=
  .bind (walks_grow fun _ hg => FlowGraph.ensures_synthetic hg) fun _ =>
    .bind walks_value fun _ => walks_address (by decide)

theorem walks_fabricateFormals : Walks p .expansion k (fabricateFormals p m c) := by
  refine .bind (walks_lift _) fun decl => .bind (walks_lift _) fun formals => ?_
  refine .bind (.forM fun ⟨formal, index⟩ _ => ?_) fun _ => ?_
  · dsimp only
    split
    · exact walks_fabricate
    · exact .pure ()
  split
  · refine .bind (walks_lift _) fun receiver? => ?_
    split
    · exact .bind (walks_lift _) fun owner => walks_fabricate
    · exact .pure ()
  · exact .pure ()

/-- Only under object sensitivity a call waits for the objects of its receiver. -/
theorem ensures_attachInstance {site : StaticSite} (hs : s.Serves p ⟨c, site.id⟩)
    (hsite : s.calls.IsStatic site.id) :
    Ensures (attachInstance p site c) s fun attached s' => s.Steps p .expansion s' ∧
      (p.settings.policy ≠ .object → attached = false) := by
  have hno : ∀ t, s.Steps p .expansion t → s.Steps p .expansion t ∧
      (p.settings.policy ≠ .object → false = false) := fun _ h => ⟨h, fun _ => rfl⟩
  unfold attachInstance
  split
  · exact ensures_pure (hno s .refl)
  next hpolicy =>
  refine ensures_lift_bind fun decl _ => ?_
  split
  · exact ensures_pure (hno s .refl)
  split
  · exact ensures_pure (hno s .refl)
  refine ensures_bind (ensures_value (w := .expansion) hs.1) ?_
  rintro n s₁ ⟨h₁, -⟩
  have hs₁ := h₁.serves hs
  refine ensures_node_bind fun a _ => ?_
  split
  · exact ensures_pure (hno s₁ h₁)
  refine ensures_attach_bind (p := p) (w := .expansion) (d := (site.id, c)) ?_ ?_
    ⟨hs₁.2.2 _ rfl, hs₁.2.1⟩ (.inl rfl) fun s' h' => ensures_pure ⟨h₁.tail h', fun h => absurd h hpolicy⟩
  · intro i e
    simp only [PointerInfo.calls, List.mem_append, List.mem_singleton]
    grind
  · intro i e he
    refine (List.mem_append.1 he).imp_right fun he => ?_
    cases List.mem_singleton.1 he
    exact hsite.mono h₁.turns.evolves.sites

/-- A call of a body is connected with its callee. -/
theorem ensures_instantiateCall (hs : s.Serves p ⟨c, i?⟩) (hi : s.calls.IsStatic i)
    (hstated : s.Stated i) : Ensures (instantiateCall p c i) s fun _ s' => s.Steps p .expansion s' ∧
      s'.StaticWired p c i := by
  obtain ⟨site, hsite⟩ := hi
  refine ensures_get_bind ?_
  rw [hsite]
  have hknows := hs.2.at_site (hs.1.sites.static_lt_size hsite)
  refine ensures_bind (Q := fun _ s₁ => s.Steps p .expansion s₁) (ensures_discard
    (ensures_modifyGet (.single (.calls CallGraph.addEdge_grows)))) fun _ s₁ h₁ => ?_
  have hs₁ := h₁.serves ⟨hs.1, hknows⟩
  have hid : site.id = i := hs.1.sites.id i _ (SiteTable.static?_eq_some.1 hsite)
  have hstatic : s₁.calls.IsStatic site.id := hid ▸ ⟨site, h₁.turns.evolves.sites.static? hsite⟩
  refine ensures_bind (ensures_attachInstance hs₁ hstatic) ?_
  rintro attached s₂ ⟨h₂, hattached⟩
  have hs₂ := h₂.serves hs₁
  have h₁₂ := h₁.trans h₂
  have hsite₂ := h₁₂.turns.evolves.sites.static? hsite
  cases attached with
  | true =>
    refine ensures_pure ⟨h₁₂, site, hsite₂, fun hpolicy => ?_⟩
    cases hattached hpolicy
  | false =>
    have hstated₂ : s₂.Stated site.id := hid ▸ hstated.retains (h₁₂.retains hs.1)
    refine ensures_discard ((ensures_call (w := .expansion) nofun (fun _ => ⟨rfl, hstated₂⟩) hs₂).mono
      fun _ s' h' => ?_)
    have hr := h'.1.retains hs₂.1
    refine ⟨h₁₂.trans h'.1, site, hr.calls.sites.static? hsite₂, fun _ hbody => ?_⟩
    refine (h'.2 hbody).imp (hr.modelled_iff (by simp)).1 ?_
    rintro ⟨c', offset, hwired⟩
    have hzero : offset = 0 := hwired.applied
    exact ⟨c', hzero ▸ hwired⟩

/-- The receiver of a call on a value has a node. -/
theorem ensures_dynamicReceiver {v : ValueId} (hs : s.Sane p)
    (hsite : s.calls.sites.dynamic? i = some site) (hv : site.receiver = some (.value v)) :
    Ensures (dynamicReceiver p i c) s fun n? s' => s.Steps p .expansion s' ∧
      ∃ n, n? = some n ∧ s'.graph.nodeOf? p.scene c v = .ok (some n) := by
  refine ensures_get_bind ?_
  simp only [hsite, hv]
  refine ensures_bind (ensures_value (w := .expansion) hs) ?_
  rintro n s₁ ⟨h₁, hn⟩
  exact ensures_pure ⟨h₁, n, rfl, hn⟩

/-- A call joins those that a pointer has for its objects and that have no known callee. -/
structure Registering (d : SiteId × ContextId) (f : PointerInfo → PointerInfo) : Prop where
  calls : ∀ info e, e ∈ (f info).calls ↔ e ∈ info.calls ∨ e = d
  instances : ∀ info, (f info).instanceCalls = info.instanceCalls

theorem registering_dynamic (d : SiteId × ContextId) :
    Registering d fun info => { info with dynamicCalls := info.dynamicCalls ++ [d] } := by
  refine ⟨fun info e => ?_, fun _ => rfl⟩
  simp only [PointerInfo.calls, List.mem_append, List.mem_singleton]
  grind

theorem registering_unknown (d : SiteId × ContextId) :
    Registering d fun info => { info with unknownCalls := info.unknownCalls ++ [d] } := by
  refine ⟨fun info e => ?_, fun _ => rfl⟩
  simp only [PointerInfo.calls, List.mem_append, List.mem_singleton]
  grind

/-- The receiver of a call that waits for objects is in the graph from then on. -/
theorem ensures_attach {f : PointerInfo → PointerInfo} (hf : Registering (i, c) f)
    (hs : s.Serves p ⟨c, i?⟩) (hsite : s.calls.sites.dynamic? i = some site)
    (hplain : site.IsPlain m) :
    Ensures (attach p i c f) s fun _ s' => s.Steps p .expansion s' ∧ s'.Attached p c i := by
  obtain ⟨-, ⟨v, hv⟩, -⟩ := hplain
  refine ensures_bind (ensures_dynamicReceiver hs.1 hsite hv) ?_
  rintro _ s₁ ⟨h₁, n, rfl, hn⟩
  have hs₁ := h₁.serves hs
  have hsite₁ := (h₁.retains hs.1).calls.sites.dynamic? hsite
  have hattached : s₁.Attached p c i := ⟨site, v, hsite₁, hv, n, hn⟩
  refine ensures_node_bind fun a _ => ?_
  split
  · rw [← bind_pure (wake n)]
    refine ensures_attach_bind (p := p) (w := .expansion) hf.calls
      (fun info e he => .inl (hf.instances info ▸ he))
      ⟨SiteTable.lt_size_of_dynamic? hsite₁, hs₁.2.1⟩ (.inl rfl) fun s' h' => ?_
    exact ensures_pure ⟨h₁.tail h', hattached.retains (h'.retains hs₁.1)⟩
  · exact Ensures.mono (walks_note _ s₁ hs₁) fun _ s' h' =>
      ⟨h₁.trans h', hattached.retains (h'.retains hs₁.1)⟩

/-- The calls of a summary are connected with their callees or attached to their receivers. -/
theorem ensures_instantiateCalls_bind {summary : Summary} {rest : Run Unit}
    {R : Unit → State → Prop} (hs : s.Serves p ⟨c, none⟩)
    (hsummary : s.summaries[m]? = some summary)
    (h : ∀ s', s.Steps p .expansion s' → (∀ i ∈ summary.staticCalls, s'.StaticWired p c i) →
      (∀ i, summary.Waits i → s'.Attached p c i) → Ensures rest s' R) : Ensures (do
      summary.staticCalls.toList.forM (instantiateCall p c)
      summary.dynamicCalls.toList.forM (attachDynamic p · c)
      summary.unknownCalls.toList.forM (attachUnknown p · c)
      rest) s R := by
  have hplain {i : SiteId} {t : State} (ht : s.Steps p .expansion t) (hi : summary.Waits i) :
      ∃ site, t.calls.sites.dynamic? i = some site ∧ site.IsPlain m := by
    obtain ⟨site, hsite, hplain⟩ := (hs.1.recorded.described m summary hsummary).waiting hi
    exact ⟨site, (ht.retains hs.1).calls.sites.dynamic? hsite, hplain⟩
  refine ensures_bind (ensures_steps_each (w := .expansion) (P := fun i t => t.StaticWired p c i) hs
    (fun _ _ _ hr h => h.retains hr) fun i hi t ht hst => ?_) ?_
  · have hlists := hs.1.recorded.static m summary hsummary i (Array.mem_toList_iff.1 hi)
    have hstated : s.Stated i := ⟨m, summary, hsummary, Array.mem_toList_iff.1 hi⟩
    exact ensures_instantiateCall hst
      ((hlists.isStatic hs.1.recorded.listed).mono ht.turns.evolves.sites)
      (hstated.retains (ht.retains hs.1))
  rintro _ s₁ ⟨h₁, hwired⟩
  have hs₁ := h₁.serves hs
  refine ensures_bind (ensures_steps_each (w := .expansion) (P := fun i t => t.Attached p c i) hs₁
    (fun _ _ _ hr h => h.retains hr) fun i hi t ht hst => ?_) ?_
  · obtain ⟨site, hsite, hplain⟩ := hplain (h₁.trans ht) (.inl (Array.mem_toList_iff.1 hi))
    exact ensures_attach (registering_dynamic _) hst hsite hplain
  rintro _ s₂ ⟨h₂, hdynamic⟩
  have hs₂ := h₂.serves hs₁
  refine ensures_bind (ensures_steps_each (w := .expansion) (P := fun i t => t.Attached p c i) hs₂
    (fun _ _ _ hr h => h.retains hr) fun i hi t ht hst => ?_) ?_
  · obtain ⟨site, hsite, hplain⟩ := hplain ((h₁.trans h₂).trans ht) (.inr (Array.mem_toList_iff.1 hi))
    exact ensures_attach (registering_unknown _) hst hsite hplain
  rintro _ s₃ ⟨h₃, hunknown⟩
  refine h s₃ ((h₁.trans h₂).trans h₃) (fun i hi => ?_) fun i hi => ?_
  · exact (hwired i (Array.mem_toList_iff.2 hi)).retains ((h₂.trans h₃).retains hs₁.1)
  · rcases hi with hi | hi
    · exact (hdynamic i (Array.mem_toList_iff.2 hi)).retains (h₃.retains hs₂.1)
    · exact hunknown i (Array.mem_toList_iff.2 hi)

/-- A method with a summary is in the graph afterwards. -/
theorem ensures_instantiate (hs : s.Serves p ⟨c, none⟩) (hm : p.HasBody m → m ∈ s.summaries) :
    Ensures (instantiate p m c) s fun _ s' => s.Steps p .expansion s' ∧ s'.Instance p (c, m) := by
  refine ensures_get_bind ?_
  split
  · next hnone =>
    have hno : m ∉ s.summaries := by simp [Std.TreeMap.mem_iff_isSome_getElem?, hnone]
    exact ensures_pure ⟨.refl, hm, by simp [hnone], fun h => absurd (hs.1.recorded.captures m h) hno⟩
  next summary hsummary =>
  refine ensures_reach_bind fun _ calls hcalls => ?_
  have h₁ : s.Steps p .expansion { s with calls } := .single (.calls hcalls)
  have hs₁ := h₁.serves hs
  refine ensures_bind (ensures_steps_each (w := .expansion) (P := fun e t => t.Assigns p c e) hs₁
    (fun _ _ _ hr h => h.retains hr) fun e _ t _ hst => ensures_instantiateEdge hst.1) ?_
  rintro _ s₂ ⟨h₂, hedges⟩
  have hs₂ := h₂.serves hs₁
  refine ensures_bind (ensures_steps_each (w := .expansion) (P := fun a t => t.Stores p c a) hs₂
    (fun _ _ _ hr h => h.retains hr) fun a _ t _ hst => ensures_instantiateAllocation hst.1) ?_
  rintro _ s₃ ⟨h₃, hallocations⟩
  have hs₃ := h₃.serves hs₂
  extract_lets finish
  have hfinish : ∀ t, s₃.Steps p .expansion t → Ensures (finish ()) t fun _ s' =>
      s.Steps p .expansion s' ∧ s'.Instance p (c, m) := by
    intro t ht
    have hst := ht.serves hs₃
    have h₁₃ := (h₁.trans h₂).trans h₃
    have hsummary₃ := ((h₁₃.trans ht).retains hs.1).summaries m summary hsummary
    refine ensures_instantiateCalls_bind hst hsummary₃ fun t₁ ht₁ hwired hattached => ?_
    -- whatever is still to come, the summary stays in the graph
    have hinstance : ∀ s', t₁.Steps p .expansion s' → (m ∈ s'.captures → (c, m) ∈ s'.links) →
        s.Steps p .expansion s' ∧ s'.Instance p (c, m) := by
      intro s' h' hlinked
      have hr := ((ht.trans ht₁).trans h').retains hs₃.1
      have hr₂ := (h₃.retains hs₂.1).trans hr
      have hr₁ := h'.retains (ht₁.serves hst).1
      refine ⟨h₁₃.trans ((ht.trans ht₁).trans h'), fun hbody => ?_, fun known hknown => ?_, hlinked⟩
      · exact hr.mem_summaries ((h₁₃.retains hs.1).mem_summaries (hm hbody))
      have hsame := hr.summaries m summary ((h₁₃.retains hs.1).summaries m summary hsummary)
      cases Option.some.inj (hsame.symm.trans hknown)
      exact {
        edges := fun e he => (hedges e (Array.mem_toList_iff.2 he)).retains hr₂
        allocations := fun a ha => (hallocations a (Array.mem_toList_iff.2 ha)).retains hr
        wired := fun i hi => (hwired i hi).retains hr₁
        attached := fun i hi => (hattached i hi).retains hr₁ }
    refine ensures_modify ?_
    split
    · exact hinstance _ (.single (.records (.link _))) fun _ => Array.mem_push_self
    · next hno => exact hinstance _ .refl fun h => absurd (Std.TreeMap.contains_iff_mem.2 h) hno
  split
  · exact ensures_bind (walks_fabricateFormals s₃ hs₃) fun _ s₄ h₄ => hfinish s₄ h₄
  · exact hfinish s₃ .refl

/-- Each instance of a captured variable is connected with the local that refers to it. -/
theorem ensures_linkCapture {capture : Capture} (hs : s.Sane p) :
    Ensures (linkCapture p c capture) s fun _ s' => s.Steps p .expansion s' ∧
      s'.Linked p s.graph c capture := by
  refine ensures_get_bind (ensures_lift_bind fun instances hinstances => ?_)
  have hmem : ∀ x, s.graph.HasInstance p.scene capture.source x → ∃ c, (c, x) ∈ instances := by
    rintro x ⟨c, instances', hinstances', hx⟩
    cases Except.ok.inj (hinstances.symm.trans hinstances')
    exact ⟨c, hx⟩
  split
  · next hnone =>
    have hserves : s.Serves p ⟨.empty, none⟩ := ⟨hs, hs.contexts.has_empty, nofun⟩
    refine Ensures.mono (walks_lift _ s hserves) fun _ s' h' => ⟨h', fun x hx => ?_⟩
    obtain ⟨c, hx⟩ := hmem x hx
    simp [List.isEmpty_iff.1 hnone] at hx
  refine ensures_bind (ensures_value (w := .expansion) hs) ?_
  rintro y s₁ ⟨h₁, hy⟩
  have hs₁ := h₁.sane hs
  refine (ensures_forM_each (I := fun t => s₁.Steps p .expansion t)
    (P := fun x t => t.graph.CopyEdge x.2 y ∧ (capture.writes = true → t.graph.CopyEdge y x.2))
    instances .refl ?_).mono ?_
  · rintro ⟨d, x⟩ _ t ht
    have hst := ht.sane hs₁
    refine ensures_bind (ensures_flow (w := .expansion) (by decide) hst) ?_
    rintro _ t₁ ⟨ht₁, hedge⟩
    have hst₁ := ht₁.sane hst
    have hkeep : ∀ t', t₁.Steps p .expansion t' → ∀ z : ContextId × NodeId,
        (t.graph.CopyEdge z.2 y ∧ (capture.writes = true → t.graph.CopyEdge y z.2)) →
        t'.graph.CopyEdge z.2 y ∧ (capture.writes = true → t'.graph.CopyEdge y z.2) := by
      intro t' ht' z hz
      have hr := (ht₁.trans ht').retains hst
      exact ⟨hz.1.imp fun k hk => ⟨hk.1, hr.graph.edge hk.2⟩,
        fun hw => (hz.2 hw).imp fun k hk => ⟨hk.1, hr.graph.edge hk.2⟩⟩
    split
    · refine ensures_discard ((ensures_flow (w := .expansion) (by decide) hst₁).mono ?_)
      rintro _ t₂ ⟨ht₂, hback⟩
      exact ⟨(ht.trans ht₁).trans ht₂, ⟨⟨_, rfl, (ht₂.retains hst₁).graph.edge hedge⟩,
        fun _ => ⟨_, rfl, hback⟩⟩, hkeep t₂ ht₂⟩
    · next hno =>
      exact ensures_pure ⟨ht.trans ht₁, ⟨⟨_, rfl, hedge⟩, fun hw => absurd hw hno⟩, hkeep t₁ .refl⟩
  · rintro _ s' ⟨h', hall, -⟩
    refine ⟨h₁.trans h', fun x hx => ?_⟩
    obtain ⟨d, hx⟩ := hmem x hx
    exact ⟨y, (h'.retains hs₁).nodeOf _ _ _ hy, hall _ hx⟩

/-- The captured variables of a method are connected with the instances that they have. -/
theorem ensures_link {a : Activation} (hs : s.Sane p) :
    Ensures (link p a) s fun _ s' => s.Steps p .expansion s' ∧
      ∀ capture ∈ (s.captures[a.2]?).getD [], s'.Linked p s.graph a.1 capture := by
  refine ensures_get_bind ((ensures_forM_each (I := fun t => s.Steps p .expansion t)
    (P := fun capture t => t.Linked p s.graph a.1 capture) _ .refl ?_).mono
    fun _ _ h => ⟨h.1, h.2.1⟩)
  intro capture _ t ht
  have hst := ht.sane hs
  refine (ensures_linkCapture hst).mono fun _ t' ⟨h', hlinked⟩ => ⟨ht.trans h', ?_, ?_⟩
  · exact fun x hx => hlinked x (ht.hasInstance hs hx)
  · exact fun _ hold => hold.retains (h'.retains hst)

/-- One pass of the work on the agenda: nothing if it is empty, else whether what was taken from it
is instantiated. -/
def drainOnce (p : Problem) : Run (Option Bool) := do
  match (← get).agenda.pop? with
  | none => return none
  | some ((c, m), agenda) =>
    modify fun s => { s with agenda }
    if (← get).instantiated.contains (c, m) then return some false
    else
      modify fun s => { s with instantiated := s.instantiated.insert (c, m) }
      let _ ← summarize p m
      instantiate p m c
      return some true

theorem drainAgenda_succ {changed : Bool} :
    drainAgenda p (fuel + 1) changed = drainOnce p >>= fun new? =>
      new?.elim (pure changed) fun new => drainAgenda p fuel (changed || new) := by
  rw [drainAgenda, drainOnce, bind_assoc]
  congr 1
  funext s
  cases s.agenda.pop? with
  | none => simp only [pure_bind, Option.elim_none]
  | some next =>
    simp only [bind_assoc]
    congr 1
    funext _
    congr 1
    funext s
    split
    · simp only [pure_bind, Option.elim_some, Bool.or_false]
    · simp only [bind_assoc, pure_bind, Option.elim_some, Bool.or_true]

/-- What a pass of the work on the agenda does. -/
inductive Drained (p : Problem) (s : State) : Option Bool → State → Prop where
  | done : s.agenda.toList = [] → Drained p s none s
  | known {a : Activation} {agenda : Queue Activation} : s.agenda.pop? = some (a, agenda) →
      a ∈ s.instantiated → Drained p s (some false) { s with agenda }
  | new {a : Activation} {agenda : Queue Activation} {s' : State} :
      s.agenda.pop? = some (a, agenda) → a ∉ s.instantiated →
      State.Steps p .expansion { s with agenda, instantiated := s.instantiated.insert a } s' →
      s'.Instance p a → Drained p s (some true) s'

theorem ensures_drainOnce (hs : s.Sane p) : Ensures (drainOnce p) s fun r s' => Drained p s r s' := by
  refine ensures_get_bind ?_
  split
  · next hpop => exact ensures_pure (.done ((Queue.pop?_eq_none_iff _).1 hpop))
  next c m agenda hpop =>
  refine ensures_modify_bind ?_
  refine ensures_get_bind ?_
  split
  · next hold => exact ensures_pure (.known hpop (Std.TreeSet.contains_iff_mem.1 hold))
  · next hnew =>
    rw [Std.TreeSet.contains_iff_mem] at hnew
    have hmem : (c, m) ∈ s.agenda.toList := Queue.toList_of_pop? hpop ▸ .head _
    have hknown : s.extent.HasActivation p (c, m) := hs.recorded.agenda _ hmem
    have h₁ : s.Turns p .expansion
        { s with agenda, instantiated := s.instantiated.insert (c, m) } :=
      .single (.take rfl hpop hnew)
    refine ensures_modify_bind ?_
    have hs₁ := h₁.serves (k := ⟨c, none⟩) ⟨hs, hknown.1, nofun⟩
    refine ensures_bind (ensures_summarize (w := .expansion) hs₁) fun _ s₃ ⟨h₃, hsummary⟩ => ?_
    refine ensures_bind (ensures_instantiate (h₃.serves hs₁) hsummary) fun _ s₄ ⟨h₄, hinst⟩ => ?_
    exact ensures_pure (.new hpop hnew (h₃.trans h₄) hinst)

theorem Drained.turns {r : Option Bool} (h : Drained p s r s') : s.Turns p .expansion s' := by
  cases h with
  | done => exact .refl
  | known hpop hold => exact .single (.skip rfl hpop hold)
  | new hpop hnew h => exact .head (.take rfl hpop hnew) h.turns

theorem Drained.expands {r : Option Bool} (h : Drained p s r s') (hs : s.Sane p) :
    s.Expands p s' := by
  have hturns := h.turns
  have hr := hturns.retains hs
  have hs' := (hturns.sane_and_le hs).1
  cases h with
  | done => exact .refl s
  | known => exact ⟨hturns, fun hall => hall.retains hr hs' rfl⟩
  | new _ _ h hinst =>
    refine ⟨hturns, fun hall b hb => ?_⟩
    rw [h.instantiated] at hb
    rcases (mem_insert ..).1 hb with rfl | hb
    · exact hinst
    · exact (hall b hb).retains hr hs'

/-- What has come about when the agenda is empty: nothing else, or something was learned. -/
inductive Expanded (s : State) (changed : Bool) : Bool → State → Prop where
  | idle {agenda : Queue Activation} : agenda.toList = [] →
      Expanded s changed changed { s with agenda }
  | reached {s' : State} : s.Learns s' → Expanded s changed true s'

theorem ensures_drainAgenda {changed : Bool} (hs : s.Sane p) :
    EnsuresOr (fun s' => s.Turns p .expansion s') (drainAgenda p fuel changed) s fun r s' =>
      s.Expands p s' ∧ Expanded s changed r s' := by
  induction fuel generalizing s changed with
  | zero => exact ensures_throw fun _ => .refl
  | succ fuel ih =>
    rw [drainAgenda_succ]
    refine ensures_bind (ensures_drainOnce hs).toOr fun new? s₁ h₁ => ?_
    have hexpands := h₁.expands hs
    have hturns := hexpands.turns
    cases h₁ with
    | done hnil => exact ensures_pure ⟨.refl s, .idle hnil⟩
    | known hpop hold =>
      rw [Option.elim_some, Bool.or_false]
      refine ((ih (hturns.sane_and_le hs).1).weaken fun s' h' => hturns.trans h').mono ?_
      rintro r s' ⟨h', hr⟩
      refine ⟨hexpands.trans h', ?_⟩
      cases hr with
      | idle hnil => exact .idle hnil
      | reached hlearns => exact .reached hlearns
    | @new a agenda s₁ hpop hnew h₁ =>
      rw [Option.elim_some, Bool.or_true]
      refine ((ih (hturns.sane_and_le hs).1).weaken fun s' h' => hturns.trans h').mono ?_
      rintro r s' ⟨h', hr⟩
      have hmem : a ∈ s.instantiated.insert a := (mem_insert ..).2 (.inl rfl)
      have hlearns : s.Learns s' :=
        ⟨.instantiated a, (h₁.turns.trans h'.turns).evolves.instantiated a hmem, hnew⟩
      refine ⟨hexpands.trans h', ?_⟩
      cases hr with
      | idle => exact .reached hlearns
      | reached => exact .reached hlearns

/-- All captured variables are connected with the instances that they have at the beginning. -/
theorem ensures_links (hs : s.Sane p) :
    Ensures (s.links.toList.forM (link p)) s fun _ s' => s.Steps p .expansion s' ∧
      s.Links p s' := by
  refine (ensures_forM_each (I := fun t => s.Steps p .expansion t)
    (P := fun a t => ∀ capture ∈ (s.captures[a.2]?).getD [], t.Linked p s.graph a.1 capture)
    s.links.toList .refl ?_).mono fun _ _ h => ⟨h.1, fun a ha => h.2.1 a (Array.mem_toList_iff.2 ha)⟩
  intro a _ t ht
  have hst := ht.sane hs
  refine (ensures_link hst).mono fun _ t' ⟨h', hlinked⟩ => ⟨ht.trans h', ?_, ?_⟩
  · intro capture hcapture x hx
    exact hlinked capture ((ht.retains hs).mem_captures hs hcapture) x (ht.hasInstance hs hx)
  · exact fun b hb capture hcapture => (hb capture hcapture).retains (h'.retains hst)

/-- Only the work on the agenda can run out of fuel. -/
theorem ensures_expand (hs : s.Sane p) :
    EnsuresOr (fun s' => drainAgenda p fuel false s = .error .outOfFuel s') (expand p fuel) s
      fun reached s' => s.Expands p s' ∧ Expanded s false reached s' ∧
        ∀ s₁, drainAgenda p fuel false s = .ok true s₁ → s₁.Retains p s' ∧ s₁.Links p s' := by
  refine ensures_bind ⟨(ensures_drainAgenda hs).runs.1, fun e s' h he => ?_⟩ ?_
  · rw [h, he]
  rintro reached s₁ ⟨⟨h₁, hreached⟩, hrun⟩
  have hs₁ := (h₁.turns.sane_and_le hs).1
  dsimp only
  cases hreached with
  | idle hnil =>
    refine ensures_pure ⟨h₁, .idle hnil, fun s₂ h₂ => ?_⟩
    rw [hrun] at h₂
    cases h₂
  | reached hlearns =>
    refine ensures_get_bind (ensures_bind (ensures_links hs₁).toOr ?_)
    rintro _ s₂ ⟨h₂, hlinks⟩
    refine ensures_pure ⟨h₁.trans (h₂.expands hs₁),
      .reached (hlearns.precedes (h₂.turns.precedes hs₁)), fun s₃ h₃ => ?_⟩
    rw [hrun] at h₃
    cases h₃
    exact ⟨h₂.retains hs₁, hlinks⟩

end Run

end PointsTo
