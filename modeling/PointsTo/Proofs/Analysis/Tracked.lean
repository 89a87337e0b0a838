import PointsTo.Proofs.Analysis.Walk
import PointsTo.Proofs.Call.Edges
import PointsTo.Proofs.Regime.Calls

/-! Calls lead from the entries to whatever runs. -/
namespace PointsTo

namespace State

variable {scene : Scene} {s t u : State} {m m' : MethodId} {i : SiteId} {site : DynamicSite}

/-- Whether a method was instantiated under some context. -/
def Runs (s : State) (m : MethodId) : Prop := ∃ c, (c, m) ∈ s.instantiated

/-- Whether a method was instantiated under some context or will be. -/
def Awaited (s : State) (m : MethodId) : Prop := ∃ c, s.Awaits (c, m)

/-- Whether calls lead from an entry to a method. -/
def Reaches (s : State) (m : MethodId) : Prop := ∃ a ∈ s.entries, s.calls.Leads a.2 m

/-- Whether the caller of a call site runs. -/
def Live (s : State) (i : SiteId) : Prop :=
  ∃ site, s.calls.sites.get? i = some site ∧ s.Runs site.caller

/-- A call is made by a method that runs. -/
def MadeBy (s : State) (i : SiteId) (m : MethodId) : Prop :=
  s.Runs m ∧ ∃ site, s.calls.sites.static? i = some site ∧ site.caller = m

/-- Calls, entries and methods that run are not taken back. -/
structure Advances (scene : Scene) (s t : State) : Prop where
  calls : s.calls.Grows scene t.calls := by exact .refl _
  entries : ∀ a ∈ s.entries, a ∈ t.entries := by exact fun _ h => h
  instantiated : ∀ a ∈ s.instantiated, a ∈ t.instantiated := by exact fun _ h => h
  awaits : ∀ a, s.Awaits a → t.Awaits a := by exact fun _ h => h

/-- What calls and methods that run rely on. -/
structure Tracked (scene : Scene) (s : State) : Prop where
  graph : s.graph.Consistent scene
  coherent : s.calls.Coherent
  listed : s.calls.Listed scene
  edges : ∀ i m m', s.calls.Joins i m m' → s.MadeBy i m
  awaits : ∀ a, s.Awaits a → s.Reaches a.2
  entries : ∀ a ∈ s.entries, s.Awaits a
  scheduled : ∀ m ∈ s.scheduled, s.Awaited m
  captures : ∀ (m : MethodId) (captures : List Capture), s.captures[m]? = some captures →
    ∀ x ∈ captures, s.Awaited x.owner
  registered : ∀ n d, s.graph.Registers n d → s.Live d.1
  waiting : ∀ n d, s.graph.Attaches PointerInfo.instanceCalls n d →
    ∃ site, s.calls.sites.static? d.1 = some site ∧ s.Reaches site.callee
  unresolved : ∀ d ∈ s.unresolved, s.Live d.1

theorem Advances.trans (h : s.Advances scene t) (h' : t.Advances scene u) :
    s.Advances scene u where
  calls := h.calls.trans h'.calls
  entries a ha := h'.entries a (h.entries a ha)
  instantiated a ha := h'.instantiated a (h.instantiated a ha)
  awaits a ha := h'.awaits a (h.awaits a ha)

theorem Runs.mono (hm : s.Runs m) (h : s.Advances scene t) : t.Runs m := by
  obtain ⟨c, hc⟩ := hm
  exact ⟨c, h.instantiated _ hc⟩

theorem Awaited.mono (hm : s.Awaited m) (h : s.Advances scene t) : t.Awaited m := by
  obtain ⟨c, hc⟩ := hm
  exact ⟨c, h.awaits _ hc⟩

theorem Reaches.mono (hm : s.Reaches m) (h : s.Advances scene t) : t.Reaches m := by
  obtain ⟨a, ha, hleads⟩ := hm
  exact ⟨a, h.entries a ha, hleads.mono h.calls⟩

theorem Live.mono (hi : s.Live i) (h : s.Advances scene t) : t.Live i := by
  obtain ⟨site, hsite, hruns⟩ := hi
  exact ⟨site, h.calls.sites.keeps i site hsite, hruns.mono h⟩

theorem MadeBy.mono (hi : s.MadeBy i m) (h : s.Advances scene t) : t.MadeBy i m := by
  obtain ⟨hruns, site, hsite, rfl⟩ := hi
  exact ⟨hruns.mono h, site, h.calls.sites.static? hsite, rfl⟩

/-- What a method calls is reached with it. -/
theorem Reaches.joins (hm : s.Reaches m) (h : s.calls.Joins i m m') : s.Reaches m' := by
  obtain ⟨a, ha, hleads⟩ := hm
  exact ⟨a, ha, hleads.tail ⟨i, h⟩⟩

theorem Tracked.reaches_of_runs (h : s.Tracked scene) (hm : s.Runs m) : s.Reaches m := by
  obtain ⟨c, hc⟩ := hm
  exact h.awaits (c, m) (.inr hc)

theorem live_of_static {site : StaticSite} (h : s.calls.sites.static? i = some site)
    (hm : s.Runs site.caller) : s.Live i :=
  ⟨_, SiteTable.static?_eq_some.1 h, hm⟩

theorem live_of_dynamic (h : s.calls.sites.dynamic? i = some site) (hm : s.Runs site.caller) :
    s.Live i :=
  ⟨_, SiteTable.dynamic?_eq_some.1 h, hm⟩

theorem Live.runs (h : s.Live i) (hsite : s.calls.sites.dynamic? i = some site) :
    s.Runs site.caller := by
  obtain ⟨x, hx, hruns⟩ := h
  cases Option.some.inj (hx.symm.trans (SiteTable.dynamic?_eq_some.1 hsite))
  exact hruns

/-- What is new in a state is in order there. -/
structure Tracks (scene : Scene) (s t : State) : Prop extends s.Advances scene t where
  graph : s.graph.Consistent scene → t.graph.Consistent scene := by exact id
  coherent : s.calls.Coherent → t.calls.Coherent := by exact id
  edges : ∀ i m m', t.calls.Joins i m m' → s.calls.Joins i m m' ∨ t.MadeBy i m := by
    exact fun _ _ _ h => .inl h
  reached : ∀ a, t.Awaits a → s.Awaits a ∨ t.Reaches a.2 := by exact fun _ h => .inl h
  launched : ∀ a ∈ t.entries, a ∈ s.entries ∨ t.Awaits a := by exact fun _ h => .inl h
  scheduled : ∀ m ∈ t.scheduled, m ∈ s.scheduled ∨ t.Awaited m := by exact fun _ h => .inl h
  captures : ∀ (m : MethodId) (captures : List Capture), t.captures[m]? = some captures →
    s.captures[m]? = some captures ∨ ∀ x ∈ captures, t.Awaited x.owner := by
    exact fun _ _ h => .inl h
  registered : ∀ n d, t.graph.Registers n d → s.graph.Registers n d ∨ t.Live d.1 := by
    exact fun _ _ h => .inl h
  waiting : ∀ n d, t.graph.Attaches PointerInfo.instanceCalls n d →
    s.graph.Attaches PointerInfo.instanceCalls n d ∨
      ∃ site, t.calls.sites.static? d.1 = some site ∧ t.Reaches site.callee := by
    exact fun _ _ h => .inl h
  unresolved : ∀ d ∈ t.unresolved, d ∈ s.unresolved ∨ t.Live d.1 := by exact fun _ h => .inl h

theorem Tracked.tracks (h : s.Tracked scene) (ht : s.Tracks scene t) : t.Tracked scene where
  graph := ht.graph h.graph
  coherent := ht.coherent h.coherent
  listed := ht.calls.listed h.listed
  edges i m m' hj := (ht.edges i m m' hj).elim (fun hj => (h.edges i m m' hj).mono ht.toAdvances) id
  awaits a ha := (ht.reached a ha).elim (fun ha => (h.awaits a ha).mono ht.toAdvances) id
  entries a ha := (ht.launched a ha).elim (fun ha => ht.awaits a (h.entries a ha)) id
  scheduled m hm := (ht.scheduled m hm).elim (fun hm => (h.scheduled m hm).mono ht.toAdvances) id
  captures m captures hm := (ht.captures m captures hm).elim
    (fun hm x hx => (h.captures m captures hm x hx).mono ht.toAdvances) id
  registered n d hd := (ht.registered n d hd).elim
    (fun hd => (h.registered n d hd).mono ht.toAdvances) id
  waiting n d hd := (ht.waiting n d hd).elim (fun hd => by
    obtain ⟨site, hsite, hreached⟩ := h.waiting n d hd
    exact ⟨site, ht.calls.sites.static? hsite, hreached.mono ht.toAdvances⟩) id
  unresolved d hd := (ht.unresolved d hd).elim
    (fun hd => (h.unresolved d hd).mono ht.toAdvances) id

/-- Steps that have nothing to do with calls. -/
structure Still (scene : Scene) (s t : State) : Prop where
  frame : t = { s with
    graph := t.graph, retrigger := t.retrigger, updates := t.updates, log := t.log
    contexts := t.contexts, singletons := t.singletons }
  graph : s.graph.Consistent scene → t.graph.Consistent scene
  registered : ∀ n d, t.graph.Registers n d → s.graph.Registers n d
  waiting : ∀ n d, t.graph.Attaches PointerInfo.instanceCalls n d →
    s.graph.Attaches PointerInfo.instanceCalls n d

instance : Std.Refl (Still scene) := ⟨fun _ => ⟨rfl, id, fun _ _ h => h, fun _ _ h => h⟩⟩

instance : Trans (Still scene) (Still scene) (Still scene) where
  trans h h' := ⟨h'.frame.trans (by rw [h.frame]), h'.graph ∘ h.graph,
    fun n d hd => h.registered n d (h'.registered n d hd),
    fun n d hd => h.waiting n d (h'.waiting n d hd)⟩

instance : Preserves (fun s => s.graph.Consistent scene) (Still scene) :=
  ⟨fun _ _ h hs => h.graph hs⟩

theorem Still.tracks (h : s.Still scene t) : s.Tracks scene t := by
  rw [h.frame]
  exact { graph := h.graph, registered := fun n d hd => .inl (h.registered n d hd),
          waiting := fun n d hd => .inl (h.waiting n d hd) }

theorem Still.joins (h : s.Still scene t) (hj : t.calls.Joins i m m') : s.calls.Joins i m m' := by
  rw [h.frame] at hj
  exact hj

/-- Besides, a call that is new leads to an entry. -/
structure Proceeds (scene : Scene) (s t : State) : Prop extends s.Advances scene t where
  edges : ∀ i m m', t.calls.Joins i m m' → s.calls.Joins i m m' ∨ ∃ a ∈ t.entries, a.2 = m' := by
    exact fun _ _ _ h => .inl h

theorem Proceeds.refl (s : State) : s.Proceeds scene s := {}

theorem Proceeds.trans (h : s.Proceeds scene t) (h' : t.Proceeds scene u) :
    s.Proceeds scene u where
  toAdvances := h.toAdvances.trans h'.toAdvances
  edges i m m' hj := by
    rcases h'.edges i m m' hj with hj | hentry
    · refine (h.edges i m m' hj).imp_right ?_
      rintro ⟨a, ha, hm⟩
      exact ⟨a, h'.entries a ha, hm⟩
    · exact .inr hentry

/-- The second state is in order and comes from the first one by what a call does. -/
structure Maintains (scene : Scene) (s t : State) : Prop extends s.Proceeds scene t where
  tracked : t.Tracked scene

theorem Maintains.refl (h : s.Tracked scene) : s.Maintains scene s := ⟨.refl s, h⟩

theorem Maintains.trans (h : s.Maintains scene t) (h' : t.Maintains scene u) :
    s.Maintains scene u :=
  ⟨h.toProceeds.trans h'.toProceeds, h'.tracked⟩

theorem Tracked.maintains (h : s.Tracked scene) (ht : s.Tracks scene t)
    (hedges : ∀ i m m', t.calls.Joins i m m' →
      s.calls.Joins i m m' ∨ ∃ a ∈ t.entries, a.2 = m') : s.Maintains scene t :=
  ⟨⟨ht.toAdvances, hedges⟩, h.tracks ht⟩

theorem Still.maintains (h : s.Still scene t) (hs : s.Tracked scene) : s.Maintains scene t :=
  hs.maintains h.tracks fun _ _ _ hj => .inl (h.joins hj)

/-- More call sites change nothing. -/
theorem Tracked.sites (h : s.Tracked scene) {sites : SiteTable}
    (hgrows : s.calls.sites.Grows sites) :
    s.Maintains scene { s with calls := { s.calls with sites } } :=
  h.maintains { calls := CallGraph.grows_sites hgrows, coherent := fun h => h.sites _ _ }
    fun _ _ _ => .inl

/-- A call of a method that runs may be attached to a node. -/
theorem Tracked.attach (h : s.Tracked scene) {n : NodeId} {d : SiteId × ContextId}
    {f : PointerInfo → PointerInfo} {woken : Std.TreeSet NodeId}
    (hf : ∀ i e, e ∈ (f i).calls → e ∈ i.calls ∨ e = d)
    (hinstance : ∀ i e, e ∈ (f i).instanceCalls → e ∈ i.instanceCalls ∨
      ∃ site, s.calls.sites.static? e.1 = some site ∧ s.Reaches site.callee)
    (hd : s.Live d.1) :
    s.Maintains scene { s with
      graph := s.graph.modifyNode n (·.mapPointer f), retrigger := woken } := by
  refine h.maintains { graph := fun h => h.mapPointer n f, registered := fun m e he => ?_,
                       waiting := fun m e he => ?_ } fun _ _ _ => .inl
  · refine (registers_mapPointer hf he).imp_right ?_
    rintro ⟨-, rfl⟩
    exact hd
  · exact (attaches_mapPointer hinstance he).imp_right And.right

/-- A method that runs may call another one. -/
theorem Tracked.addEdge (h : s.Tracked scene) (site : StaticSite) (callee : MethodId)
    (type : CallType) (hsite : s.calls.sites.static? site.id = some site)
    (hruns : s.Runs site.caller) :
    s.Tracks scene { s with
      calls := (s.calls.addEdge site.id site.caller callee type).2 } where
  calls := CallGraph.addEdge_grows
  coherent h := h.addEdge
  edges i a b hj := by
    refine (CallGraph.joins_addEdge h.coherent hj).imp_right ?_
    rintro ⟨rfl, rfl, -⟩
    have hgrows : s.calls.Grows scene (s.calls.addEdge site.id site.caller callee type).2 :=
      CallGraph.addEdge_grows
    exact ⟨hruns, site, hgrows.sites.static? hsite, rfl⟩

end State

namespace Run
open State FlowGraph

variable {scene : Scene} {σ : Settings} {p : Problem} {s : State} {α β : Type}

/-- The computation has nothing to do with calls. -/
abbrev Stays (scene : Scene) (m : Run α) : Prop :=
  Follows (fun s => s.graph.Consistent scene) (Still scene) m

section Stays

theorem stays_of_frame {m : Run α}
    (h : ∀ s : State, Ensures m s fun _ t => t = { s with
      retrigger := t.retrigger, updates := t.updates, log := t.log, contexts := t.contexts
      singletons := t.singletons }) : Stays scene m := by
  refine fun s _ => (h s).mono fun _ t ht => ?_
  rw [ht]
  exact ⟨rfl, id, fun _ _ h => h, fun _ _ h => h⟩

theorem stays_grow {m : Growing α}
    (h : ∀ g : FlowGraph, g.Consistent scene → Ensures m g fun _ g' => g.Grows scene g') :
    Stays scene (grow m) := by
  refine fun s hs => (ensures_grow (h s.graph hs)).mono ?_
  rintro _ _ ⟨g, rfl, hg⟩
  exact ⟨rfl, fun _ => hg.consistent, fun _ _ => hg.toAdds.registers_iff.1,
    fun _ _ => attaches_of_keeps hg.toAdds.keeps hg.toAdds.registers_iff.1⟩

theorem stays_flow {a b : NodeId} {kind : EdgeKind} {stmt : Option StmtId} :
    Stays scene (flow a b kind stmt) := by
  intro s hs
  refine ensures_bind (ensures_grow ensures_addEdge) ?_
  rintro r s₁ ⟨g, rfl, ⟨rfl, -, rfl⟩ | ⟨rfl, -, ha, hb, rfl⟩⟩
  · exact ensures_pure (Std.Refl.refl s)
  · refine ensures_bind ensures_wakeSource ?_
    rintro _ _ ⟨woken, rfl, -⟩
    exact ensures_pure ⟨rfl, fun h => h.withEdge ha hb, fun _ _ h => h, fun _ _ h => h⟩

theorem stays_address {o b : NodeId} {stmt : Option StmtId} : Stays scene (address o b stmt) := by
  intro s hs
  refine ensures_bind (ensures_grow ensures_addEdge) ?_
  rintro r s₁ ⟨g, rfl, ⟨rfl, -, rfl⟩ | ⟨rfl, -, ha, hb, rfl⟩⟩
  · exact ensures_pure (Std.Refl.refl s)
  · exact ensures_pure ⟨rfl, fun h => h.withEdge ha hb, fun _ _ h => h, fun _ _ h => h⟩

theorem stays_mapPointer {n : NodeId} {f : PointerInfo → PointerInfo}
    (hf : ∀ i, (f i).calls = i.calls) (hinstance : ∀ i, (f i).instanceCalls = i.instanceCalls) :
    Stays scene (mapPointer n f) := by
  refine fun s hs => ensures_mapPointer.mono ?_
  rintro _ _ rfl
  refine ⟨rfl, fun h => h.mapPointer n f, fun m d hd => ?_, fun m d hd => ?_⟩
  · refine (registers_mapPointer (Q := fun _ => False) (fun i e he => .inl ?_) hd).resolve_right
      fun h => h.2
    rwa [hf] at he
  · refine (attaches_mapPointer (Q := fun _ => False) (fun i e he => .inl ?_) hd).resolve_right
      fun h => h.2
    rwa [hinstance] at he

theorem stays_scan (q : Scan α) : Stays scene (scan q) := by
  refine stays_of_frame fun s => ?_
  constructor
  · intro a s' h
    unfold scan at h
    split at h
    · cases h
      rfl
    · cases h
  · intro e s' h
    unfold scan at h
    split at h
    · cases h
    · cases h
      exact fun h => nomatch h

theorem stays_lift (x : Except Fault α) : Stays scene (liftM x : Run α) := stays_scan _

theorem stays_update {n o : NodeId} : Stays scene (update p n o) :=
  stays_of_frame fun _ => ensures_modify rfl

theorem stays_note {n : Notice} : Stays scene (note n) :=
  stays_of_frame fun _ => ensures_modify rfl

theorem stays_node (n : NodeId) : Stays scene (node n) := by
  intro s hs
  rw [← bind_pure (node n)]
  exact ensures_node_bind fun _ _ => ensures_pure (Std.Refl.refl s)

theorem stays_choose {f : ContextTable → ContextTable.Choice} : Stays scene (choose f) :=
  stays_of_frame fun _ => ensures_modifyGet rfl

theorem stays_calleeContext {site : StaticSite} {caller : ContextId} {object : Option NodeId}
    {callee : MethodId} : Stays scene (calleeContext p site caller object callee) := by
  refine .bind (.bind .get fun s => ?_) fun shared => ?_
  · split
    · exact .pure _
    · refine .bind (stays_lift _) fun decl => .bind .get fun _ => ?_
      exact .bind (stays_of_frame fun _ => ensures_modify rfl) fun _ => .pure _
  · split
    · exact .pure _
    · exact stays_choose

end Stays

section Schedule

variable {m : MethodId} {c : ContextId}

/-- A method that is reached may be put on the agenda. -/
theorem tracks_schedule (scene : Scene) (hm : s.Reaches m) :
    Ensures (schedule m c) s fun _ t => s.Tracks scene t ∧ t.Awaits (c, m) ∧ t.calls = s.calls := by
  refine ensures_modify ?_
  split
  · next h => exact ⟨{}, .inr (Std.TreeSet.contains_iff_mem.1 h), rfl⟩
  · have hpush : ∀ a, a ∈ (s.agenda.push (c, m)).toList ↔ a ∈ s.agenda.toList ∨ a = (c, m) := by
      intro a
      rw [Queue.toList_push, List.mem_append, List.mem_singleton]
    have hawaits : (c, m) ∈ (s.agenda.push (c, m)).toList := (hpush _).2 (.inr rfl)
    refine ⟨{ awaits := fun a ha => ?_, reached := fun a ha => ?_, scheduled := fun k hk => ?_ },
      .inl hawaits, rfl⟩
    · exact ha.imp_left fun ha => (hpush a).2 (.inl ha)
    · rcases ha with ha | ha
      · rcases (hpush a).1 ha with ha | rfl
        · exact .inl (.inl ha)
        · exact .inr hm
      · exact .inl (.inr ha)
    · rcases (mem_insert ..).1 hk with rfl | hk
      · exact .inr ⟨c, .inl hawaits⟩
      · exact .inl hk

theorem maintains_reach (hs : s.Tracked scene) :
    Ensures (reach p m) s fun _ t => s.Maintains scene t := by
  refine ensures_lift_bind fun decl _ => ensures_discard (ensures_modifyGet ?_)
  have hgrows : s.calls.Grows scene (s.calls.addNode m decl.kind).2 := CallGraph.addNode_grows
  have hjoins : ∀ i a b, (s.calls.addNode m decl.kind).2.Joins i a b → s.calls.Joins i a b :=
    fun i a b => .of_edges hs.coherent hs.coherent.addNode hgrows CallGraph.edges_addNode
  exact hs.maintains { calls := hgrows, coherent := fun h => h.addNode,
                       edges := fun i a b hj => .inl (hjoins i a b hj) }
    fun i a b hj => .inl (hjoins i a b hj)

/-- Who becomes an entry is awaited. -/
theorem maintains_addEntry (hs : s.Tracked scene) :
    Ensures (addEntry p m) s fun _ t => s.Maintains scene t ∧ t.Awaited m ∧
      ∃ a ∈ t.entries, a.2 = m := by
  refine ensures_bind (stays_choose s hs.graph) fun c s₁ h₁ => ?_
  have h₁ := h₁.maintains hs
  refine ensures_bind (maintains_reach h₁.tracked) fun _ s₂ h₂ => ?_
  have h₂ := h₁.trans h₂
  refine ensures_bind (Q := fun _ s₃ => ∃ entries : Array Activation,
    s₃ = { s₂ with entries } ∧ (∀ a ∈ s₂.entries, a ∈ entries) ∧ (c, m) ∈ entries ∧
      ∀ a ∈ entries, a ∈ s₂.entries ∨ a = (c, m)) (ensures_modify ?_) ?_
  · split
    · next h =>
      exact ⟨s₂.entries, rfl, fun _ ha => ha, by simpa using h, fun _ => .inl⟩
    · exact ⟨_, rfl, fun _ ha => Array.mem_push_of_mem _ ha, Array.mem_push_self,
        fun _ => Array.mem_push.1⟩
  rintro _ _ ⟨entries, rfl, hsub, hmem, hnew⟩
  have hreached : State.Reaches { s₂ with entries } m := ⟨(c, m), hmem, .refl⟩
  refine (tracks_schedule scene hreached).mono fun _ t ⟨ht, hawaits, hcalls⟩ => ?_
  -- the entry is awaited, so that the states before and after both are in order
  have htracks : s₂.Tracks scene t := { ht with
    entries := fun a ha => ht.entries a (hsub a ha)
    launched := fun a ha => by
      rcases ht.launched a ha with ha | ha
      · refine (hnew a ha).imp_right ?_
        rintro rfl
        exact hawaits
      · exact .inr ha }
  refine ⟨h₂.trans (h₂.tracked.maintains htracks fun i a b hj => .inl ?_), ⟨c, hawaits⟩,
    (c, m), ht.entries _ hmem, rfl⟩
  rwa [hcalls] at hj

theorem maintains_enter (hs : s.Tracked scene) (hm : s.Reaches m) :
    Ensures (enter p m c) s fun _ t => s.Maintains scene t := by
  refine ensures_bind (maintains_reach hs) fun _ s₁ h₁ => ?_
  refine (tracks_schedule scene (hm.mono h₁.toAdvances)).mono fun _ t ⟨ht, _, hcalls⟩ => ?_
  exact h₁.trans (h₁.tracked.maintains ht fun i a b hj => .inl (hcalls ▸ hj))

/-- The owners of captured variables are awaited. -/
theorem maintains_summarize (hs : s.Tracked p.scene) :
    Ensures (summarize p m) s fun _ t => s.Maintains p.scene t := by
  refine ensures_get_bind ?_
  split
  · exact ensures_pure (.refl hs)
  refine ensures_lift_bind fun decl _ => ?_
  split
  · refine ensures_bind (stays_lift _ s hs.graph) fun owner s₁ h₁ => ?_
    exact ensures_pure (h₁.maintains hs)
  refine ensures_bind (ensures_survey hs.listed) ?_
  rintro captures _ ⟨v, -, rfl, hgrows, hframe, -, rfl⟩
  have h₁ : s.Maintains p.scene { s with
      calls := v.calls, log := v.log, summaries := s.summaries.insert m v.summary } := by
    have hjoins : ∀ i a b, v.calls.Joins i a b → s.calls.Joins i a b := by
      intro i a b hj
      rw [hframe] at hj
      exact hj
    have hcoherent : v.calls.Coherent := by
      rw [hframe]
      exact hs.coherent.sites _ _
    exact hs.maintains { calls := hgrows, coherent := fun _ => hcoherent,
                         edges := fun i a b hj => .inl (hjoins i a b hj) }
      fun i a b hj => .inl (hjoins i a b hj)
  split
  · refine ensures_bind (ensures_forM_each (I := fun t => s.Maintains p.scene t)
      (P := fun owner t => t.Awaited owner) _ h₁ ?_) ?_
    · intro owner _ t ht
      refine ensures_get_bind ?_
      split
      · refine (maintains_addEntry ht.tracked).mono fun _ t' ⟨ht', hawaited, _⟩ => ?_
        exact ⟨ht.trans ht', hawaited, fun _ h => h.mono ht'.toAdvances⟩
      · next hscheduled =>
        refine ensures_pure ⟨ht, ht.tracked.scheduled owner ?_, fun _ h => h⟩
        simpa using hscheduled
    rintro _ s₂ ⟨h₂, howners, -⟩
    refine ensures_modify_bind (ensures_pure ?_)
    refine h₂.trans (h₂.tracked.maintains { captures := fun k captures hk => ?_ } fun _ _ _ => .inl)
    rw [getElem?_insert] at hk
    split at hk
    · cases hk
      exact .inr fun x hx => howners _ (Capture.mem_owners.2 ⟨x, hx, rfl⟩)
    · exact .inl hk
  · exact ensures_pure h₁

end Schedule

section Sites

variable {site : StaticSite} {c : ContextId}

/-- A call of a model is made on behalf of the method that calls the model. -/
theorem maintains_callPointer {pointer : NodeId} {args : List CallArg} (hs : s.Tracked scene)
    (hruns : s.Runs site.caller) :
    Ensures (callPointer site c pointer args) s fun _ t => s.Maintains scene t := by
  refine ensures_get_bind ?_
  split
  · exact ensures_pure (.refl hs)
  refine ensures_bind (Q := fun i s₁ => s.Maintains scene s₁ ∧ s₁.Live i) ?_ ?_
  · exact ensures_modifyGet ⟨hs.sites SiteTable.addDynamic_grows,
      live_of_dynamic SiteTable.dynamic?_addDynamic hruns⟩
  rintro i s₁ ⟨h₁, hlive⟩
  refine ensures_bind (Q := fun _ s₂ => s.Maintains scene s₂ ∧ s₂.Live i)
    (ensures_modify ⟨h₁.trans (h₁.tracked.maintains {} fun _ _ _ => .inl), hlive⟩) ?_
  rintro _ s₂ ⟨h₂, hlive⟩
  refine ensures_node_bind fun a _ => ?_
  split
  · refine ensures_bind ensures_mapPointer ?_
    rintro _ _ rfl
    refine ensures_modify_bind (ensures_pure
      (h₂.trans (h₂.tracked.attach (d := (i, c)) (fun info e he => ?_) (fun _ _ => .inl) hlive)))
    simp only [PointerInfo.calls, List.mem_append, List.mem_singleton] at he ⊢
    grind
  · exact ensures_bind (Q := fun _ t => s.Maintains scene t)
      ((stays_note s₂ h₂.tracked.graph).mono fun _ _ h => h₂.trans (h.maintains h₂.tracked))
      fun _ _ h => ensures_pure h

/-- A call of a method that runs makes another method an entry. -/
theorem maintains_launch {m : MethodId} (hs : s.Tracked scene)
    (hsite : s.calls.sites.static? site.id = some site) (hruns : s.Runs site.caller) :
    Ensures (addEntry p m >>= fun _ => onCalls (·.addEdge site.id site.caller m .special)) s
      fun _ t => s.Maintains scene t := by
  refine ensures_bind (maintains_addEntry hs) ?_
  rintro _ s₁ ⟨h₁, -, hentry⟩
  refine ensures_modifyGet ?_
  refine h₁.trans (h₁.tracked.maintains (h₁.tracked.addEdge site m .special
    (h₁.calls.sites.static? hsite) (hruns.mono h₁.toAdvances)) fun i a b hj => ?_)
  refine (CallGraph.joins_addEdge h₁.tracked.coherent hj).imp_right ?_
  rintro ⟨-, -, rfl⟩
  exact hentry

end Sites

end Run

section Ledger
open State Run

/-- What calls keep in order apart from the flow of objects, and the steps that have to be looked at
for it. -/
structure Ledger (p : Problem) where
  Holds : State → Prop
  Later : State → State → Prop
  /-- Calls that may be made. -/
  Site : State → StaticSite → Prop
  /-- Calls whose callees may be entered. -/
  Entry : State → StaticSite → Prop
  graph : ∀ {s}, Holds s → s.graph.Consistent p.scene
  holds : ∀ {s t}, Later s t → Holds t
  trans : ∀ {s t u}, Later s t → Later t u → Later s u
  still : ∀ {s t}, Holds s → s.Still p.scene t → Later s t
  site_later : ∀ {s t a}, Later s t → Site s a → Site t a
  entry_later : ∀ {s t a}, Later s t → Entry s a → Entry t a
  site_of_entry : ∀ {s a}, Entry s a → Site s a
  callPointer : ∀ {s a c n args}, Holds s → Site s a →
    Ensures (Run.callPointer a c n args) s fun _ t => Later s t
  summarize : ∀ {s a}, Holds s → Entry s a → p.HasBody a.callee →
    Ensures (Run.summarize p a.callee) s fun _ t => Later s t
  enter : ∀ {s a c}, Holds s → Entry s a →
    Ensures (Run.enter p a.callee c) s fun _ t => Later s t
  launch : ∀ {s a m}, Holds s → Site s a →
    Ensures (Run.addEntry p m >>= fun _ =>
      Run.onCalls (·.addEdge a.id a.caller m .special)) s fun _ t => Later s t

namespace Ledger

variable {p : Problem} (L : Ledger p) {s : State}

theorem refl (hs : L.Holds s) : L.Later s s := L.still hs (Std.Refl.refl s)

/-- The computation leads from a state in order to another one. -/
def Keeps {α : Type} (s : State) (m : Run α) (V : State → α → Prop) : Prop :=
  L.Holds s → ∀ a t, m s = .ok a t → L.Later s t ∧ V t a

variable {L}

theorem keeps_of_ensures {α : Type} {m : Run α}
    (h : L.Holds s → Ensures m s fun _ t => L.Later s t) : L.Keeps s m fun _ _ => True :=
  fun hs _ _ ht => ⟨(h hs).1 ht, trivial⟩

theorem keeps_of_stays {α : Type} {m : Run α} (h : Stays p.scene m) : L.Keeps s m fun _ _ => True :=
  keeps_of_ensures fun hs => (h s (L.graph hs)).mono fun _ _ ht => L.still hs ht

/-- What keeps a ledger in order. -/
def regime (L : Ledger p) : Regime p where
  Strict := False
  Answers := True
  Node _ _ := True
  Target _ _ := True
  Base _ _ := True
  Context _ _ := True
  Site := L.Site
  Entry := L.Entry
  wellFormed := Problem.wellFormed_of_false
  Keeps := L.Keeps
  Later := L.Later
  node_later _ h := h
  target_later _ h := h
  base_later _ h := h
  context_later _ h := h
  site_later := L.site_later
  entry_later := L.entry_later
  node_of_target h := h
  target_of_base h := h
  form_of_site _ := .of_all id (fun _ => trivial) fun _ _ => trivial
  site_of_entry := L.site_of_entry
  pure h := by
    rintro hs a t ht
    cases ht
    exact ⟨L.refl hs, h⟩
  bind h hf := by
    rintro hs b t ht
    obtain ⟨a, s₁, ha, hb⟩ := bind_eq_ok.1 ht
    obtain ⟨h₁, hV⟩ := h hs a s₁ ha
    obtain ⟨h₂, hW⟩ := hf s₁ a h₁ hV (L.holds h₁) b t hb
    exact ⟨L.trans h₁ h₂, hW⟩
  get_bind h := h
  fail := by
    intro _ _ _ _ _ _ a t ht
    cases ht
  lift_bind := by
    intro _ _ s x f V _ h hs b t ht
    cases x with
    | error e => cases ht
    | ok a => exact h a rfl hs b t ht
  note _ := keeps_of_stays stays_note
  node {_ n} _ := keeps_of_stays (stays_node n)
  value _ _ _ := keeps_of_stays (stays_grow fun _ hg => (FlowGraph.ensures_value hg).mono
    fun _ _ h => h.1)
  slot := keeps_of_stays (stays_grow fun _ hg => FlowGraph.ensures_slot hg)
  temporary _ _ := keeps_of_stays (stays_grow fun _ hg =>
    (FlowGraph.ensures_temporary hg).mono fun _ _ h => h.1)
  fieldRef _ := keeps_of_stays (stays_grow fun _ hg => FlowGraph.ensures_fieldRef hg)
  element _ := keeps_of_stays (stays_grow fun _ hg =>
    (FlowGraph.ensures_element hg).mono fun _ _ h => h.1)
  synthetic _ _ _ := keeps_of_stays (stays_grow fun _ hg => FlowGraph.ensures_synthetic hg)
  boundFunction _ _ _ _ := keeps_of_stays (stays_grow fun _ hg =>
    FlowGraph.ensures_boundFunction hg)
  flow _ _ _ _ := keeps_of_stays stays_flow
  address _ _ _ _ := keeps_of_stays stays_address
  mark hf _ := keeps_of_stays
    (stays_mapPointer (fun i => by simp only [PointerInfo.calls, hf i]) fun i => (hf i).2.2)
  callPointer hsite _ _ _ := keeps_of_ensures fun hs => L.callPointer hs hsite
  select hentry hbody _ _ := keeps_of_ensures fun hs =>
    ensures_bind (L.summarize hs hentry hbody) fun _ s₁ h₁ =>
      (stays_calleeContext s₁ (L.graph (L.holds h₁))).mono fun _ _ h₂ =>
        L.trans h₁ (L.still (L.holds h₁) h₂)
  enter hentry _ := keeps_of_ensures fun hs => L.enter hs hentry
  launch hsite _ := keeps_of_ensures fun hs => L.launch hs hsite

theorem connects (L : Ledger p) : L.regime.Connects where
  object {_ n} _ hs a t ht := by
    refine ⟨?_, .of_all id (fun _ => trivial) trivial (fun _ => trivial) a⟩
    exact L.still hs ((stays_node n _ (L.graph hs)).1 ht)
  update _ _ := keeps_of_stays stays_update

/-- A call whose callee may be entered keeps everything in order. -/
theorem call (L : Ledger p) {t : State} {site : StaticSite} {c : ContextId}
    {object : Option NodeId} {new : List NodeId} (hs : L.Holds s) (hsite : L.Entry s site)
    (h : Run.call p site c object s = .ok new t) : L.Later s t :=
  (L.connects.call hsite trivial (fun _ _ => trivial) hs new t h).1

end Ledger

/-- A method that runs may make a call. -/
def State.Issues (s : State) (a : StaticSite) : Prop :=
  s.calls.sites.static? a.id = some a ∧ s.Runs a.caller

theorem State.Issues.mono {scene : Scene} {s t : State} {a : StaticSite} (h : s.Issues a)
    (ht : s.Advances scene t) : t.Issues a :=
  ⟨ht.calls.sites.static? h.1, h.2.mono ht⟩

/-- The calls lead from the entries to whatever runs. -/
def tracking (p : Problem) : Ledger p where
  Holds s := s.Tracked p.scene
  Later s t := s.Maintains p.scene t
  Site := State.Issues
  Entry s a := s.Issues a ∧ s.Reaches a.callee
  graph hs := hs.graph
  holds h := h.tracked
  trans := .trans
  still hs h := h.maintains hs
  site_later h hsite := hsite.mono h.toAdvances
  entry_later h hentry := ⟨hentry.1.mono h.toAdvances, hentry.2.mono h.toAdvances⟩
  site_of_entry := And.left
  callPointer hs hsite := maintains_callPointer hs hsite.2
  summarize hs _ _ := maintains_summarize hs
  enter hs hentry := maintains_enter hs hentry.2
  launch hs hsite := maintains_launch hs hsite.1 hsite.2

end Ledger

/-- Whether a call on an object only binds arguments to a function. -/
def State.OnlyBinds (s : State) (site : StaticSite) (o : NodeId) : Prop :=
  ∃ a, s.graph.At o a ∧ a.isFunction = true ∧
    ApiName.of? Platform.functionClass site.signature.name = some .functionBind

namespace Run
open State

variable {p : Problem} {s t : State} {site : StaticSite} {c : ContextId} {object : Option NodeId}
  {o : NodeId} {new : List NodeId}

/-- A call of a method that runs keeps everything in order, if its callee is reached. -/
theorem maintains_call (hs : s.Tracked p.scene) (hsite : s.Issues site)
    (hcallee : s.Reaches site.callee) (h : call p site c object s = .ok new t) :
    s.Maintains p.scene t :=
  (tracking p).call hs ⟨hsite, hcallee⟩ h

theorem ensures_reflective?_of_onlyBinds (h : s.OnlyBinds site o) :
    Ensures (Model.reflective? site (some o)) s fun api? t => s = t ∧ api? = some .functionBind := by
  obtain ⟨a, ha, hf, hapi⟩ := h
  refine ensures_node_bind fun a' ha' => ?_
  cases Option.some.inj (ha'.symm.trans ha)
  rw [if_pos hf]
  exact ensures_pure ⟨rfl, hapi⟩

theorem ensures_find?_of_onlyBinds (h : s.OnlyBinds site o) :
    Ensures (Model.find? p site (some o)) s fun m? t => s = t ∧
      (m? = some .storage ∨ m? = some .reflection) := by
  unfold Model.find? Model.all
  refine ensures_bind (Q := fun _ t => s = t) ?_ ?_
  · refine ensures_bind (Q := fun _ t => s = t) ?_ fun _ _ h => ensures_pure h
    exact ensures_lift_bind fun _ _ => ensures_lift_bind fun _ _ => ensures_pure rfl
  rintro stored _ rfl
  cases stored with
  | true => exact ensures_pure ⟨rfl, .inl rfl⟩
  | false =>
    refine ensures_bind (Q := fun taken t => s = t ∧ taken = true) ?_ ?_
    · refine ensures_bind (ensures_reflective?_of_onlyBinds h) ?_
      rintro _ _ ⟨rfl, rfl⟩
      exact ensures_pure ⟨rfl, rfl⟩
    rintro _ _ ⟨rfl, rfl⟩
    exact ensures_pure ⟨rfl, .inr rfl⟩

/-- No method is entered by a call that only binds arguments. -/
theorem maintains_call_of_onlyBinds (hs : s.Tracked p.scene) (hsite : s.Issues site)
    (hbinds : s.OnlyBinds site o) (h : call p site c (some o) s = .ok new t) :
    s.Maintains p.scene t := by
  obtain ⟨m?, s₁, hfind, h⟩ := bind_eq_ok.1 h
  obtain ⟨rfl, rfl | rfl⟩ := (ensures_find?_of_onlyBinds hbinds).1 hfind
  · have hform : (tracking p).regime.Form s site := (tracking p).regime.form_of_site hsite
    exact (Model.keeps_handle_storage (some o) hform trivial hs new t h).1
  · obtain ⟨api?, s₁, hapi, h⟩ := bind_eq_ok.1 h
    obtain ⟨rfl, rfl⟩ := (ensures_reflective?_of_onlyBinds hbinds).1 hapi
    have hkeeps : (tracking p).regime.Runs s (Model.Reflection.bind p site c o) :=
      Model.Reflection.keeps_bind hsite trivial trivial
    exact (hkeeps hs new t h).1

end Run

end PointsTo
