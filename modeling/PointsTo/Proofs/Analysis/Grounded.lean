import PointsTo.Proofs.Analysis.Progress
import PointsTo.Proofs.Analysis.Tracked

/-! The call graph and the methods that run agree at the end of every round. -/
namespace PointsTo

/-- No statement belongs to two methods. -/
def Scene.OneBody (scene : Scene) : Prop :=
  ∀ m m' stmt, scene.HasStmt m stmt → scene.HasStmt m' stmt → m = m'

theorem Scene.oneBody_iff {scene : Scene} : scene.OneBody ↔
    ∀ i j : Fin scene.methods.size, ∀ stmt ∈ scene.methods[i].stmts,
      stmt ∈ scene.methods[j].stmts → i = j := by
  constructor
  · intro h i j stmt hi hj
    have hfetch : ∀ k : Fin scene.methods.size, scene.method ⟨k⟩ = .ok scene.methods[k] :=
      fun k => Ref.fetch_eq_ok_iff.2 (Array.getElem?_eq_getElem k.isLt)
    exact Fin.ext (congrArg Ref.index (h ⟨i⟩ ⟨j⟩ stmt ⟨_, hfetch i, hi⟩ ⟨_, hfetch j, hj⟩))
  · rintro h ⟨i⟩ ⟨j⟩ stmt ⟨a, ha, hstmt⟩ ⟨b, hb, hstmt'⟩
    obtain ⟨hi, rfl⟩ := Array.getElem?_eq_some_iff.1 (Ref.fetch_eq_ok_iff.1 ha)
    obtain ⟨hj, rfl⟩ := Array.getElem?_eq_some_iff.1 (Ref.fetch_eq_ok_iff.1 hb)
    cases h ⟨i, hi⟩ ⟨j, hj⟩ stmt hstmt hstmt'
    rfl

instance (scene : Scene) : Decidable scene.OneBody :=
  have (i j : Fin scene.methods.size) : Decidable (∀ stmt ∈ scene.methods[i].stmts,
      stmt ∈ scene.methods[j].stmts → i = j) := inferInstance
  decidable_of_iff' _ Scene.oneBody_iff

namespace State

variable {p : Problem} {w : Phase} {s t u : State} {i : SiteId} {m m' : MethodId}

/-- A call was made on an object for a callee, which was found by the object or in its field. -/
def Makes (p : Problem) (s : State) (site : DynamicSite) (c : ContextId) (o : NodeId)
    (callee : MethodId) : Prop :=
  (site.id, c, o) ∈ s.resolved ∧ s.ResolvesTo p site o callee ∨
    (site.id, c, o) ∈ s.fieldDispatched ∧
      ∃ a f, s.graph.At o a ∧ a.function? = some f ∧ f.method = callee

/-- The calls that an edge of the call graph stands for, with the objects that they are made on. -/
inductive CallsOver (p : Problem) (s : State) (i : SiteId) (m m' : MethodId) :
    Option NodeId → Prop where
  | stated {c : ContextId} {summary : Summary} {site : StaticSite} :
      (c, m) ∈ s.instantiated → s.summaries[m]? = some summary → i ∈ summary.staticCalls →
      s.calls.sites.static? i = some site → site.callee = m' → CallsOver p s i m m' none
  | dispatched {site : DynamicSite} {c : ContextId} {o : NodeId} :
      s.calls.sites.dynamic? site.id = some site → site.caller = m →
      s.calls.sites.static? i = some (site.resolved i m') → s.Makes p site c o m' →
      CallsOver p s i m m' (some o)

/-- An edge leads to an entry or stands for some call. -/
def Explains (p : Problem) (s : State) (i : SiteId) (m m' : MethodId) : Prop :=
  (∃ a ∈ s.entries, a.2 = m') ∨ ∃ object, s.CallsOver p i m m' object

/-- The call graph and the methods that run are in step. -/
structure Grounded (p : Problem) (s : State) : Prop where
  sane : s.Sane p
  tracked : s.Tracked p.scene
  explained : ∀ i m m', s.calls.Joins i m m' → s.Explains p i m m'

/-- Turns that keep the call graph and the methods that run in step. -/
structure Grounds (p : Problem) (s t : State) : Prop where
  turns : s.Turns p .free t
  grounded : s.Grounded p → t.Grounded p

instance : Std.Refl (Grounds p) := ⟨fun _ => ⟨.refl, id⟩⟩

instance : Trans (Grounds p) (Grounds p) (Grounds p) :=
  ⟨fun h h' => ⟨h.turns.trans h'.turns, h'.grounded ∘ h.grounded⟩⟩

theorem Retains.advances (hr : s.Retains p t) (hp : s.Precedes t) : s.Advances p.scene t where
  calls := hr.calls
  entries := hr.entries
  instantiated a := hp.holds (.instantiated a)
  awaits := hr.awaits

theorem Grounds.advances (h : s.Grounds p t) (hs : s.Grounded p) : s.Advances p.scene t :=
  (h.turns.retains hs.sane).advances (h.turns.precedes hs.sane)

theorem Grounds.retains (h : s.Grounds p t) (hs : s.Grounded p) : s.Retains p t :=
  h.turns.retains hs.sane

theorem Grounds.has (h : s.Grounds p t) (hs : s.Grounded p) {c : ContextId}
    (hc : s.contexts.Has c) : t.contexts.Has c :=
  hc.mono (h.retains hs).contexts

theorem Makes.lt_size {site : DynamicSite} {c : ContextId} {o : NodeId} (h : s.Makes p site c o m)
    (hs : s.Sane p) :
    o.index < s.graph.nodes.size := by
  rcases h with ⟨hd, -⟩ | ⟨hd, -⟩
  · exact (hs.recorded.resolved _ hd).2
  · exact (hs.recorded.fieldDispatched _ hd).2

theorem Makes.mono {site : DynamicSite} {c : ContextId} {o : NodeId} (h : s.Makes p site c o m)
    (hr : s.Retains p t) (hp : s.Precedes t) (hs : s.Sane p) : t.Makes p site c o m := by
  have ho := h.lt_size hs
  rcases h with ⟨hd, hresolves⟩ | ⟨hd, a, f, ha, hf, rfl⟩
  · exact .inl ⟨hp.holds (.resolved _) hd, (hr.resolvesTo_iff ho).1 hresolves⟩
  · obtain ⟨b, hb, hk⟩ := hr.graph.nodes o a ha
    exact .inr ⟨hp.holds (.fieldDispatched _) hd, b, f, hb, hk.function?.trans hf, rfl⟩

theorem CallsOver.mono {object : Option NodeId} (h : s.CallsOver p i m m' object)
    (hr : s.Retains p t) (hp : s.Precedes t) (hs : s.Sane p) : t.CallsOver p i m m' object := by
  cases h with
  | stated hmem hsummary hi hsite hcallee =>
    exact .stated (hp.holds (.instantiated _) hmem) (hr.summaries _ _ hsummary) hi
      (hr.calls.sites.static? hsite) hcallee
  | dispatched hsite hcaller hi hmade =>
    exact .dispatched (hr.calls.sites.dynamic? hsite) hcaller (hr.calls.sites.static? hi)
      (hmade.mono hr hp hs)

theorem Explains.mono (h : s.Explains p i m m') (hentries : ∀ a ∈ s.entries, a ∈ t.entries)
    (hr : s.Retains p t) (hp : s.Precedes t) (hs : s.Sane p) : t.Explains p i m m' := by
  rcases h with ⟨a, ha, hm⟩ | ⟨object, hobject⟩
  · exact .inl ⟨a, hentries a ha, hm⟩
  · exact .inr ⟨object, hobject.mono hr hp hs⟩

/-- Only what is new has to be explained. -/
theorem Grounded.turns (h : s.Grounded p) (ht : s.Turns p w t)
    (htracked : t.Tracked p.scene)
    (hedges : ∀ i m m', t.calls.Joins i m m' → s.calls.Joins i m m' ∨ t.Explains p i m m') :
    s.Grounds p t :=
  ⟨ht.free, fun _ => ⟨(ht.sane_and_le h.sane).1, htracked, fun i m m' hj => (hedges i m m' hj).elim
    (fun hj => (h.explained i m m' hj).mono (ht.retains h.sane).entries (ht.retains h.sane)
      (ht.precedes h.sane) h.sane) id⟩⟩

theorem Grounded.maintains (h : s.Grounded p) (ht : s.Turns p w t)
    (hm : s.Maintains p.scene t) : s.Grounds p t :=
  h.turns ht hm.tracked fun i m m' hj => (hm.edges i m m' hj).imp_right .inl

theorem Grounded.still (h : s.Grounded p) (ht : s.Turns p w t)
    (hstill : s.Still p.scene t) : s.Grounds p t :=
  h.maintains ht (hstill.maintains h.tracked)

theorem Grounds.makes (h : s.Grounds p t) (hs : s.Grounded p) {site : DynamicSite} {c : ContextId}
    {o : NodeId} (hmade : s.Makes p site c o m) : t.Makes p site c o m :=
  hmade.mono (h.turns.retains hs.sane) (h.turns.precedes hs.sane) hs.sane

/-- Steps of the bookkeeping. -/
theorem Grounded.tracks (h : s.Grounded p) (ht : s.Turn p w t)
    (htracks : s.Tracks p.scene t) (hcalls : t.calls = s.calls) : s.Grounds p t :=
  h.turns (.single ht) (h.tracked.tracks htracks) fun _ _ _ hj => .inl (hcalls ▸ hj)

/-- The number of rounds does not matter. -/
theorem Grounded.withRounds (h : s.Grounded p) (rounds : Nat) :
    State.Grounded p { s with rounds } where
  sane := ⟨h.sane.graph, h.sane.indexed, h.sane.sites, h.sane.contexts, { h.sane.recorded with }⟩
  tracked := h.tracked.tracks {}
  explained i m m' hj := (h.explained i m m' hj).mono (fun _ ha => ha) (retains_rounds s rounds)
    (precedes_rounds s rounds) h.sane

theorem Settles.grounded {found : Solution} (h : s.Settles p found t) (hs : s.Grounded p) :
    t.Grounded p where
  sane := h.sound.toSane
  tracked := by
    have hregisters {n d} := (h.graph.registers_iff (n := n) (d := d)).1
    have hkeeps := h.graph.keeps
    have hgraph := h.sound.graph
    rw [h.rest]
    exact hs.tracked.tracks {
      graph := fun _ => hgraph
      registered := fun _ _ hd => .inl (hregisters hd)
      waiting := fun n d hd => .inl (attaches_of_keeps hkeeps hregisters hd) }
  explained i m m' hj := by
    refine Explains.mono (hs.explained i m m' ?_) ?_ (h.retains hs.sane) h.precedes hs.sane
    · rw [h.rest] at hj
      exact hj
    · rw [h.rest]
      exact fun _ ha => ha

/-- Nothing that concerns calls, but that some may be attached to a node, which is woken up. -/
def Enters (scene : Scene) (f : PointerInfo → PointerInfo) (s t : State) : Prop :=
  ∃ s₁, s.Still scene s₁ ∧ (t = s₁ ∨ ∃ n woken, t = { s₁ with
    graph := s₁.graph.modifyNode n (·.mapPointer f), retrigger := woken })

section Enters

variable {scene : Scene} {f : PointerInfo → PointerInfo}

theorem Enters.frame (h : s.Enters scene f t) : t.calls = s.calls ∧ t.synthetic = s.synthetic := by
  obtain ⟨s₁, h₁, rfl | ⟨n, woken, rfl⟩⟩ := h <;> rw [h₁.frame] <;> exact ⟨rfl, rfl⟩

theorem Enters.maintains (h : s.Enters scene f t) (hs : s.Tracked scene) {d : SiteId × ContextId}
    (hf : ∀ i e, e ∈ (f i).calls → e ∈ i.calls ∨ e = d)
    (hinstance : ∀ i e, e ∈ (f i).instanceCalls → e ∈ i.instanceCalls ∨
      ∃ site, s.calls.sites.static? e.1 = some site ∧ s.Reaches site.callee)
    (hd : s.Live d.1) : s.Maintains scene t := by
  obtain ⟨s₁, hstill, rfl | ⟨n, woken, rfl⟩⟩ := h
  · exact hstill.maintains hs
  have h₁ := hstill.maintains hs
  refine h₁.trans (h₁.tracked.attach hf (fun i e he => (hinstance i e he).imp_right ?_)
    (hd.mono h₁.toAdvances))
  rintro ⟨site, hsite, hreached⟩
  exact ⟨site, h₁.calls.sites.static? hsite, hreached.mono h₁.toAdvances⟩

end Enters

theorem grounded_initial (p : Problem) : (initial p.settings).Grounded p where
  sane := (between_initial p).toSane
  tracked := {
    graph := (between_initial p).graph
    coherent := CallGraph.coherent_empty
    listed := (between_initial p).recorded.listed
    edges := by simp [initial, CallGraph.Joins]
    awaits := by simp [initial, Awaits, Queue.toList]
    entries := by simp [initial]
    scheduled := by simp [initial]
    captures := by simp [initial]
    registered := by simp [initial, FlowGraph.Registers, FlowGraph.At]
    waiting := by simp [initial, FlowGraph.Attaches, FlowGraph.At]
    unresolved := by simp [initial] }
  explained := by simp [initial, CallGraph.Joins]

end State

namespace Run
open State

variable {p : Problem} {s : State} {site : DynamicSite} {c : ContextId} {o : NodeId}

/-- A call of a method that runs is made. -/
theorem grounds_call {site : StaticSite} {object : Option NodeId} (hs : s.Grounded p)
    (hc : s.contexts.Has c) (hsite : s.Issues site)
    (hcallee : s.Reaches site.callee ∨ ∃ o, object = some o ∧ s.OnlyBinds site o) :
    Ensures (call p site c object) s fun _ t => s.Grounds p t := by
  have hknows : s.Serves p ⟨c, site.id⟩ :=
    ⟨hs.sane, hc, fun _ hi => Option.some.inj hi ▸ hs.sane.sites.static_lt_size hsite.1⟩
  refine (EnsuresOr.runs (walks_call (w := .free) nofun (by decide) s hknows)).mono ?_
  rintro new t ⟨hsteps, hrun⟩
  refine hs.maintains hsteps.turns ?_
  rcases hcallee with hcallee | ⟨o, rfl, hbinds⟩
  · exact maintains_call hs.tracked hsite hcallee hrun
  · exact maintains_call_of_onlyBinds hs.tracked hsite hbinds hrun

/-- The callee of a call that is made is reached. -/
theorem grounds_addEdge {object : Option NodeId} (site : StaticSite) (type : CallType)
    (hs : s.Grounded p) (hsite : s.Issues site)
    (hcalls : s.CallsOver p site.id site.caller site.callee object) :
    Ensures (onCalls (·.addEdge site.id site.caller site.callee type)) s fun _ t =>
      s.Grounds p t ∧ t.Reaches site.callee := by
  have htracks := hs.tracked.addEdge site site.callee type hsite.1 hsite.2
  have hturn : s.Turn p .free { s with
      calls := (s.calls.addEdge site.id site.caller site.callee type).2 } :=
    .step (.calls CallGraph.addEdge_grows)
  refine ensures_modifyGet ⟨hs.turns (.single hturn) (hs.tracked.tracks htracks) fun j a b hj => ?_, ?_⟩
  · refine (CallGraph.joins_addEdge hs.tracked.coherent hj).imp_right ?_
    rintro ⟨rfl, rfl, rfl⟩
    exact .inr ⟨object, hcalls.mono (hturn.retains hs.sane) (Turns.precedes (.single hturn) hs.sane)
      hs.sane⟩
  · obtain ⟨m, hjoins, hm⟩ := CallGraph.addEdge_joins hs.tracked.coherent site.id site.caller
      site.callee type
    obtain rfl : m = site.caller := by
      rcases hm with rfl | hold
      · rfl
      · obtain ⟨-, site', hsite', rfl⟩ := hs.tracked.edges site.id m site.callee hold
        cases Option.some.inj (hsite'.symm.trans hsite.1)
        rfl
    exact ((hs.tracked.reaches_of_runs hsite.2).mono htracks.toAdvances).joins hjoins

/-- A call on an object is made for a callee. -/
theorem grounds_callOn {a : Node} {callee : MethodId} (hs : s.Grounded p) (hc : s.contexts.Has c)
    (hsite : s.calls.sites.dynamic? site.id = some site) (hruns : s.Runs site.caller)
    (hmade : s.Makes p site c o callee) (ha : s.graph.At o a) :
    Ensures (callOn p site c o (binds site a) callee) s fun _ t => s.Grounds p t := by
  refine ensures_callOn_of hs.sane.sites hsite fun i s₁ s₂ heq hresolved hedge => ?_
  have hgrows : s.calls.sites.Grows (s.calls.sites.resolve site.id callee).2 :=
    SiteTable.resolve_grows
  have h₁ : s.Grounds p s₁ := heq ▸ hs.maintains (w := .free)
    (.single (.step (.calls (CallGraph.grows_sites hgrows)))) (hs.tracked.sites hgrows)
  have hs₁ := h₁.grounded hs
  have h₂ : s₁.Grounds p s₂ ∧ (binds site a = false → s₂.Reaches callee) := by
    rcases hedge with ⟨hb, rfl⟩ | ⟨-, rfl⟩
    · exact ⟨Std.Refl.refl s₂, fun h => by simp [h] at hb⟩
    · obtain ⟨h₂, hreached⟩ := (grounds_addEdge (site.resolved i callee) .dynamic hs₁
        ⟨hresolved, hruns.mono (h₁.advances hs)⟩ (.dispatched
          ((h₁.retains hs).calls.sites.dynamic? hsite) rfl hresolved (h₁.makes hs hmade))).1 rfl
      exact ⟨h₂, fun _ => hreached⟩
  obtain ⟨h₂, hreached⟩ := h₂
  have h₁₂ : s.Grounds p s₂ := Trans.trans h₁ h₂
  have hresolved₂ := (h₂.retains hs₁).calls.sites.static? hresolved
  refine ⟨fun _ => h₁₂, (grounds_call (h₁₂.grounded hs) (h₁₂.has hs hc)
    ⟨hresolved₂, hruns.mono (h₁₂.advances hs)⟩ ?_).mono fun _ t ht => Trans.trans h₁₂ ht⟩
  cases hb : binds site a with
  | false => exact .inl (hreached hb)
  | true =>
    obtain ⟨a', ha', hk⟩ := (h₁₂.retains hs).graph.nodes o a ha
    simp only [binds, Bool.and_eq_true, beq_iff_eq] at hb
    refine .inr ⟨o, rfl, a', ha', ?_, hb.2⟩
    rw [Node.isFunction, hk.function?]
    exact hb.1

theorem stays_callees : Stays p.scene (callees p site o) := by
  have hclass : ∀ owner, Stays p.scene (calleesByClass p site owner) := by
    intro owner
    refine .bind ?_ fun callee? => ?_
    · unfold classCallee
      split
      · exact stays_scan _
      · exact .pure none
    split
    · exact .pure _
    split
    · exact .pure _
    split
    · exact .pure []
    · refine .bind (.mapM fun a _ => ?_) fun _ => .pure _
      unfold callbackOf
      split
      · exact .pure none
      refine .bind (stays_lift _) fun value => ?_
      split
      · exact .pure _
      refine .bind (stays_lift _) fun type => ?_
      split <;> exact .pure _
  refine .bind (stays_node o) fun a => ?_
  split
  · split
    · exact .pure _
    · exact hclass _
  · exact hclass _

variable {m : MethodId} {i : SiteId}

theorem stays_value {v : ValueId} {stmt : Option StmtId} : Stays p.scene (value p c v stmt) :=
  stays_grow fun _ hg => (FlowGraph.ensures_value hg).mono fun _ _ h => h.1

theorem stays_instantiateEdge {e : LocalEdge} : Stays p.scene (instantiateEdge p c e) := by
  refine .bind stays_value fun x => .bind stays_value fun y => ?_
  split
  · exact stays_address
  · exact .discard stays_flow

theorem stays_instantiateAllocation {a : FieldAllocation} :
    Stays p.scene (instantiateAllocation p c a) := by
  refine .bind stays_value fun x => .bind stays_value fun y => ?_
  refine .bind (stays_grow fun _ hg => (FlowGraph.ensures_temporary hg).mono fun _ _ h => h.1)
    fun n => .bind stays_address fun _ s hs => ?_
  refine ensures_bind (ensures_grow FlowGraph.ensures_addEdge) ?_
  rintro r s₁ ⟨g, rfl, ⟨rfl, -, rfl⟩ | ⟨rfl, -, ha, hb, rfl⟩⟩
  · exact ensures_pure (Std.Refl.refl s)
  · refine ensures_wakeBase.mono ?_
    rintro _ _ ⟨woken, rfl, -⟩
    exact ⟨rfl, fun h => h.withEdge ha hb, fun _ _ h => h, fun _ _ h => h⟩

theorem stays_fabricate {object : Synthetic} {owner : String} {v : ValueId} :
    Stays p.scene (fabricate p c object owner v) :=
  .bind (stays_grow fun _ hg => FlowGraph.ensures_synthetic hg) fun _ =>
    .bind stays_value fun _ => stays_address

theorem stays_fabricateFormals : Stays p.scene (fabricateFormals p m c) := by
  refine .bind (stays_lift _) fun decl => .bind (stays_lift _) fun formals => ?_
  refine .bind (.forM fun ⟨formal, index⟩ _ => ?_) fun _ => ?_
  · dsimp only
    split
    · exact stays_fabricate
    · exact .pure ()
  split
  · refine .bind (stays_lift _) fun receiver? => ?_
    split
    · exact .bind (stays_lift _) fun owner => stays_fabricate
    · exact .pure ()
  · exact .pure ()

theorem stays_link {a : Activation} : Stays p.scene (link p a) := by
  refine .bind .get fun s => .forM fun capture _ => .bind .get fun s => ?_
  refine .bind (stays_lift _) fun instances => ?_
  split
  · exact stays_lift _
  · refine .bind stays_value fun target => .forM fun x _ => .bind stays_flow fun _ => ?_
    split
    · exact .discard stays_flow
    · exact .pure ()

theorem stays_dynamicReceiver : Stays p.scene (dynamicReceiver p i c) := by
  refine .bind .get fun s => ?_
  split
  · exact .pure none
  split
  · exact .bind stays_value fun _ => .pure _
  · exact .pure _
  · exact .bind stays_note fun _ => .pure none

theorem enters_attach {f : PointerInfo → PointerInfo} (hs : s.graph.Consistent p.scene) :
    Ensures (attach p i c f) s fun _ t => s.Enters p.scene f t := by
  refine ensures_bind (stays_dynamicReceiver s hs) fun n? s₁ h₁ => ?_
  split
  · exact ensures_pure ⟨s₁, h₁, .inl rfl⟩
  refine ensures_node_bind fun a _ => ?_
  split
  · refine ensures_bind ensures_mapPointer ?_
    rintro _ _ rfl
    exact ensures_modify ⟨s₁, h₁, .inr ⟨_, _, rfl⟩⟩
  · exact (stays_note s₁ (h₁.graph hs)).mono fun _ t h => ⟨t, Trans.trans h₁ h, .inl rfl⟩

theorem enters_attachInstance {site : StaticSite} (hs : s.graph.Consistent p.scene) :
    Ensures (attachInstance p site c) s fun _ t => s.Enters p.scene
      (fun info => { info with instanceCalls := info.instanceCalls ++ [(site.id, c)] }) t := by
  unfold attachInstance
  split
  · exact ensures_pure ⟨s, Std.Refl.refl s, .inl rfl⟩
  refine ensures_lift_bind fun decl _ => ?_
  split
  · exact ensures_pure ⟨s, Std.Refl.refl s, .inl rfl⟩
  split
  · exact ensures_pure ⟨s, Std.Refl.refl s, .inl rfl⟩
  refine ensures_bind (stays_value s hs) fun n s₁ h₁ => ensures_node_bind fun a _ => ?_
  split
  · exact ensures_pure ⟨s₁, h₁, .inl rfl⟩
  refine ensures_bind ensures_mapPointer ?_
  rintro _ _ rfl
  exact ensures_modify_bind (ensures_pure ⟨s₁, h₁, .inr ⟨_, _, rfl⟩⟩)

/-- The caller of a call of a body is the method of the body. -/
theorem exists_issues (hbody : p.scene.OneBody) (hs : s.Sane p) (hm : (c, m) ∈ s.instantiated)
    (hlists : s.calls.Lists p.scene m i) :
    ∃ site, s.calls.sites.static? i = some site ∧ site.caller = m ∧ s.Issues site := by
  obtain ⟨site, hsite⟩ := hlists.isStatic hs.recorded.listed
  obtain ⟨stmt, sites, hstmt, hsites, hi⟩ := hlists
  have hcaller := (hs.recorded.listed stmt sites hsites).2 i hi site hsite
  have hsame : site.caller = m := hbody _ _ stmt hcaller hstmt
  have hid : site.id = i := hs.sites.id i _ (SiteTable.static?_eq_some.1 hsite)
  exact ⟨site, hsite, hsame, hid ▸ hsite, c, hsame ▸ hm⟩

theorem grounds_addEntry {m : MethodId} (hs : s.Grounded p) :
    Ensures (addEntry p m) s fun _ t => s.Grounds p t := by
  have hserves : s.Serves p ⟨.empty, none⟩ := ⟨hs.sane, hs.sane.contexts.has_empty, nofun⟩
  exact ((walks_addEntry (w := .free) s hserves).and (maintains_addEntry hs.tracked)).mono
    fun _ _ h => hs.maintains h.1.turns h.2.1

end Run

end PointsTo
