import PointsTo.Proofs.Analysis.Wired

/-! Every part of a round is made of steps of its phase. -/
namespace PointsTo.Run
open State FlowGraph

variable {p : Problem} {w : Phase} {k : Caller} {s : State} {α β : Type}

/-- The computation is made of steps of the phase, once its caller is known. -/
abbrev Walks (p : Problem) (w : Phase) (k : Caller) (m : Run α) : Prop :=
  Follows (Serves p k) (Steps p w) m

section Basic

variable {R : β → State → Prop}

theorem Walks.ensures_bind {m : Run α} {f : α → Run β} (hm : Walks p w k m) (hs : s.Serves p k)
    (hf : ∀ a s₁, s.Steps p w s₁ → s₁.Serves p k → Ensures (f a) s₁ R) : Ensures (m >>= f) s R :=
  PointsTo.ensures_bind (hm s hs) fun a s₁ h₁ => hf a s₁ h₁ (h₁.serves hs)

/-- What follows may rely on the result of a question. -/
theorem ensures_lift_bind {x : Except Fault α} {f : α → Run β}
    (h : ∀ a, x = .ok a → Ensures (f a) s R) : Ensures (liftM x >>= f) s R := by
  cases x with
  | error e =>
    constructor
    · intro b s' hf
      cases hf
    · intro e' s' hf he
      cases hf
      cases he
  | ok a => exact h a rfl

theorem ensures_grow {m : Growing α} {Q : α → FlowGraph → Prop} (h : Ensures m s.graph Q) :
    Ensures (grow m) s fun a s' => ∃ g, s' = { s with graph := g } ∧ Q a g := by
  constructor
  · intro a s' ha
    simp only [grow] at ha
    split at ha
    · next g hm =>
      cases ha
      exact ⟨g, rfl, h.1 hm⟩
    · cases ha
  · intro e s' he
    simp only [grow] at he
    split at he
    · cases he
    · cases he
      exact fun h => nomatch h

theorem walks_grow {m : Growing α}
    (h : ∀ g, g.Consistent p.scene → Ensures m g fun _ g' => g.Grows p.scene g') :
    Walks p w k (grow m) := by
  intro s hs
  refine (ensures_grow (h s.graph hs.1.graph)).mono ?_
  rintro a _ ⟨g, rfl, hg⟩
  exact .single (.nodes hg)

theorem node_eq {n : NodeId} {a : Node} (ha : s.graph.At n a) : node n s = .ok a s := by
  simp only [node, grow, Growing.node, FlowGraph.node_eq_ok.2 ha]

theorem ensures_node_bind {n : NodeId} {f : Node → Run β}
    (h : ∀ a, s.graph.At n a → Ensures (f a) s R) : Ensures (node n >>= f) s R := by
  refine ensures_bind (ensures_grow (Q := fun a g => s.graph.At n a ∧ g = s.graph) ?_) ?_
  · rw [← bind_pure (Growing.node n)]
    exact FlowGraph.ensures_node_bind fun a ha => ensures_pure ⟨ha, rfl⟩
  · rintro a s' ⟨g, rfl, ha, rfl⟩
    exact h a ha

theorem walks_node (n : NodeId) : Walks p w k (node n) := by
  intro s _
  rw [← bind_pure (node n)]
  exact ensures_node_bind fun a _ => ensures_pure .refl

theorem walks_scan (q : Scan α) : Walks p w k (scan q) := by
  intro s _
  constructor
  · intro a s' h
    unfold scan at h
    split at h
    · cases h
      exact .single (.records (.log _))
    · cases h
  · intro e s' h
    unfold scan at h
    split at h
    · cases h
    · cases h
      exact fun h => nomatch h

theorem walks_lift (x : Except Fault α) : Walks p w k (liftM x : Run α) := walks_scan _

theorem walks_note (n : Notice) : Walks p w k (note n) := .modify fun _ _ => .single (.records (.log _))

/-- The node of a value is there from then on. -/
theorem ensures_value {c : ContextId} {v : ValueId} {stmt : Option StmtId} (hs : s.Sane p) :
    Ensures (value p c v stmt) s fun n s' => s.Steps p w s' ∧
      s'.graph.nodeOf? p.scene c v = .ok (some n) := by
  refine (ensures_grow (FlowGraph.ensures_value hs.graph)).mono ?_
  rintro n _ ⟨g, rfl, hg, hn⟩
  exact ⟨.single (.nodes hg), hn.1⟩

theorem walks_value {c : ContextId} {v : ValueId} {stmt : Option StmtId} :
    Walks p w k (value p c v stmt) :=
  fun _ hs => (ensures_value hs.1).mono fun _ _ h => h.1

theorem walks_onCalls {f : CallGraph → α × CallGraph} (h : ∀ g : CallGraph, g.Grows p.scene (f g).2) :
    Walks p w k (onCalls f) :=
  .modifyGet fun s _ => .single (.calls (h s.calls))

/-- What every pass of a loop brings about is there at its end. -/
theorem ensures_steps_each {f : α → Run Unit} {P : α → State → Prop} {l : List α}
    (hs : s.Serves p k) (hP : ∀ x t t', t.Retains p t' → P x t → P x t')
    (hf : ∀ x ∈ l, ∀ t, s.Steps p w t → t.Serves p k →
      Ensures (f x) t fun _ t' => t.Steps p w t' ∧ P x t') :
    Ensures (l.forM f) s fun _ s' => s.Steps p w s' ∧ ∀ x ∈ l, P x s' := by
  refine (ensures_forM_each (I := fun t => s.Steps p w t) (P := P) l .refl ?_).mono
    fun _ _ h => ⟨h.1, h.2.1⟩
  intro x hx t ht
  have hst := ht.serves hs
  exact (hf x hx t ht hst).mono fun _ t' ⟨h', hx'⟩ =>
    ⟨ht.trans h', hx', fun y => hP y t t' (h'.retains hst.1)⟩

end Basic

section Edges

variable {b n a : NodeId} {stmt : Option StmtId} {c : ContextId} {site : StaticSite}
  {f : PointerInfo → PointerInfo}

theorem ensures_wakeBase {r : NodeId} : Ensures (wakeBase r) s fun _ s' =>
    ∃ woken, s' = { s with retrigger := woken } ∧ (∀ n ∈ s.retrigger, n ∈ woken) ∧
      ∀ base key, s.graph.IsFieldRef r base key → base ∈ woken := by
  refine ensures_node_bind fun a ha => ?_
  have hkind : ∀ base key, s.graph.IsFieldRef r base key → a.fieldRef? = some (base, key) := by
    rintro base key ⟨a', ha', hk⟩
    cases Option.some.inj (ha'.symm.trans ha)
    exact Node.fieldRef?_eq_some.2 hk
  split
  · next b key hb =>
    refine ensures_modify ⟨_, rfl, fun n hn => ?_, fun base key' hr => ?_⟩
    · exact (mem_insert ..).2 (.inr hn)
    · cases hb.symm.trans (hkind base key' hr)
      exact (mem_insert ..).2 (.inl rfl)
  · next hb =>
    refine ensures_pure ⟨s.retrigger, rfl, fun _ h => h, fun base key hr => ?_⟩
    exact absurd (hkind base key hr) (hb base key)

theorem ensures_wakeSource {k : EdgeKind} :
    Ensures (wakeSource a b k) s fun _ s' => ∃ woken, s' = { s with retrigger := woken } ∧
      (∀ n ∈ s.retrigger, n ∈ woken) ∧ s.graph.Wakes a b k (· ∈ woken) := by
  unfold wakeSource
  split
  · refine ensures_wakeBase.mono ?_
    rintro _ _ ⟨woken, rfl, hmono, hbase⟩
    exact ⟨woken, rfl, hmono, by simp [EdgeKind.isCopyLike], fun _ => hbase, by simp⟩
  · refine ensures_bind ensures_wakeBase ?_
    rintro _ _ ⟨woken, rfl, hmono, hbase⟩
    refine ensures_modify ⟨_, rfl, fun n hn => ?_, by simp [EdgeKind.isCopyLike], by simp, ?_⟩
    · exact (mem_insert ..).2 (.inr (hmono n hn))
    · exact fun _ base key hr => (mem_insert ..).2 (.inr (hbase base key hr))
  · next hload hwrite =>
    refine ensures_modify ⟨_, rfl, fun n hn => (mem_insert ..).2 (.inr hn), ?_⟩
    exact ⟨fun _ => (mem_insert ..).2 (.inl rfl), fun h => absurd h hload, fun h => absurd h hwrite⟩

/-- The edge is there from then on. -/
theorem ensures_flow {kind : EdgeKind} (hkind : kind ≠ .address) (hs : s.Sane p) :
    Ensures (flow a b kind stmt) s fun _ s' => s.Steps p w s' ∧ s'.graph.Edge a b kind := by
  refine ensures_bind (ensures_grow ensures_addEdge) ?_
  rintro r s₁ ⟨g, rfl, ⟨rfl, hold, rfl⟩ | ⟨rfl, hnew, ha, hb, rfl⟩⟩
  · exact ensures_pure ⟨.refl, hs.graph.tables.hasEdge_iff.1 hold⟩
  · refine ensures_bind ensures_wakeSource ?_
    rintro _ _ ⟨woken, rfl, hmono, hwakes⟩
    refine ensures_pure ⟨.single (.edge hkind hnew ha hb hmono ⟨hwakes.1, hwakes.2, hwakes.3⟩), ?_⟩
    exact edge_withEdge.2 (.inr ⟨rfl, rfl, rfl⟩)

theorem walks_flow {kind : EdgeKind} (hkind : kind ≠ .address) : Walks p w k (flow a b kind stmt) :=
  fun _ hs => (ensures_flow hkind hs.1).mono fun _ _ h => h.1

theorem ensures_address {o : NodeId} (hw : w ≠ .quiet) (hs : s.Sane p) :
    Ensures (address o b stmt) s fun _ s' => s.Steps p w s' ∧ s'.graph.Edge o b .address := by
  refine ensures_bind (ensures_grow ensures_addEdge) ?_
  rintro r s₁ ⟨g, rfl, ⟨rfl, hold, rfl⟩ | ⟨rfl, hnew, ha, hb, rfl⟩⟩
  · exact ensures_pure ⟨.refl, hs.graph.tables.hasEdge_iff.1 hold⟩
  · exact ensures_pure ⟨.single (.address hw hnew ha hb), edge_withEdge.2 (.inr ⟨rfl, rfl, rfl⟩)⟩

theorem walks_address {o : NodeId} (hw : w ≠ .quiet) : Walks p w k (address o b stmt) :=
  fun _ hs => (ensures_address hw hs.1).mono fun _ _ h => h.1

/-- An argument that can carry pointers has a node from then on. -/
theorem ensures_argument {a : CallArg} (hs : s.Sane p) :
    Ensures (argument p a c stmt) s fun n? s' => s.Steps p w s' ∧
      (a.Carries p.scene → ∃ n ∈ n?, s'.NodeAt p c a n) := by
  unfold argument
  split
  · next n => exact ensures_pure ⟨.refl, fun _ => ⟨n, rfl, rfl⟩⟩
  · refine ensures_lift_bind fun value hvalue => ?_
    split
    · refine ensures_bind (ensures_value (w := w) hs) ?_
      rintro n s₁ ⟨h₁, hn⟩
      exact ensures_pure ⟨h₁, fun _ => ⟨n, rfl, hn⟩⟩
    · next hno =>
      refine ensures_pure ⟨.refl, ?_⟩
      rintro ⟨value', hvalue', hpointer⟩
      cases Except.ok.inj (hvalue.symm.trans hvalue')
      exact absurd hpointer hno

theorem walks_argument {a : CallArg} : Walks p w k (argument p a c stmt) :=
  fun _ hs => (ensures_argument hs.1).mono fun _ _ h => h.1

theorem walks_argumentAt {index : Nat} : Walks p w k (argumentAt p site c index) := by
  unfold argumentAt
  split
  · exact walks_argument
  · exact .pure none

/-- The target of a call has a node from then on. -/
theorem ensures_targetNode (hs : s.Sane p) :
    Ensures (targetNode p site c) s fun n? s' => s.Steps p w s' ∧
      ∀ target, site.target = some target →
        ∃ n ∈ n?, s'.graph.nodeOf? p.scene c target = .ok (some n) := by
  unfold targetNode
  split
  · next v hv =>
    refine ensures_bind (ensures_value (w := w) hs) ?_
    rintro n s₁ ⟨h₁, hn⟩
    refine ensures_pure ⟨h₁, fun target ht => ?_⟩
    cases Option.some.inj (hv.symm.trans ht)
    exact ⟨n, rfl, hn⟩
  · next hnone =>
    refine ensures_pure ⟨.refl, fun target ht => ?_⟩
    rw [hnone] at ht
    cases ht

theorem walks_targetNode : Walks p w k (targetNode p site c) :=
  fun _ hs => (ensures_targetNode hs.1).mono fun _ _ h => h.1

theorem ensures_mapPointer : Ensures (mapPointer n f) s fun _ s' =>
      s' = { s with graph := s.graph.modifyNode n (·.mapPointer f) } := by
  refine (ensures_grow (Q := fun _ g => g = s.graph.modifyNode n (·.mapPointer f)) ?_).mono ?_
  · exact ensures_modify rfl
  · rintro _ _ ⟨g, rfl, rfl⟩
    rfl

theorem walks_mapPointer (hf : ∀ i, (f i).calls = i.calls)
    (hinstance : ∀ i, (f i).instanceCalls = i.instanceCalls) : Walks p w k (mapPointer n f) :=
  fun _ _ => ensures_mapPointer.mono fun _ _ h => h ▸ .single (.mark hf hinstance)

/-- A call is attached to a node, which is woken up. -/
theorem ensures_attach_bind {d : SiteId × ContextId} {m : Run β} {R : β → State → Prop}
    (hf : ∀ i e, e ∈ (f i).calls ↔ e ∈ i.calls ∨ e = d)
    (hinstance : ∀ i e, e ∈ (f i).instanceCalls → e ∈ i.instanceCalls ∨ s.calls.IsStatic e.1)
    (hd : s.extent.HasCall d) (hw : w.instantiates = true ∨ s.Mute d.1)
    (h : ∀ s', s.Step p w s' → Ensures m s' R) : Ensures (do mapPointer n f; wake n; m) s R := by
  refine ensures_bind ensures_mapPointer ?_
  rintro _ _ rfl
  exact ensures_modify_bind (h _ (.attach hf hinstance hd hw))

end Edges

section Schedule

variable {m callee : MethodId}

/-- Steps that neither use nor change what is known of captures. -/
structure Enlists (p : Problem) (w : Phase) (s s' : State) : Prop where
  captures : s'.captures = s.captures
  summaries : s'.summaries = s.summaries
  steps : ∀ captures, State.Steps p w { s with captures } { s' with captures }

instance : Std.Refl (Enlists p w) := ⟨fun _ => ⟨rfl, rfl, fun _ => .refl⟩⟩

instance : Trans (Enlists p w) (Enlists p w) (Enlists p w) :=
  ⟨fun h h' => ⟨h'.captures.trans h.captures, h'.summaries.trans h.summaries,
    fun captures => (h.steps captures).trans (h'.steps captures)⟩⟩

theorem Enlists.walks {s' : State} (h : Enlists p w s s') : s.Steps p w s' := by
  have hsame : { s' with captures := s.captures } = s' := by rw [← h.captures]
  exact hsame ▸ h.steps s.captures

theorem ensures_schedule {c : ContextId} (hm : p.HasMethod m) (hc : s.contexts.Has c) :
    Ensures (schedule m c) s fun _ s' => Enlists p w s s' ∧ s'.Awaits (c, m) := by
  refine ensures_modify ?_
  split
  · next h => exact ⟨Std.Refl.refl s, .inr (Std.TreeSet.contains_iff_mem.1 h)⟩
  · next h =>
    rw [Std.TreeSet.contains_iff_mem] at h
    refine ⟨⟨rfl, rfl, fun _ => .single (.records (.schedule (a := (c, m)) h ⟨hc, hm⟩))⟩, ?_⟩
    exact .inl (by rw [Queue.toList_push]; exact List.mem_append_right _ (.head _))

theorem ensures_reach_bind {f : Unit → Run β} {R : β → State → Prop}
    (h : p.HasMethod m → ∀ calls, s.calls.Grows p.scene calls → Ensures (f ()) { s with calls } R) :
    Ensures (reach p m >>= f) s R := by
  rw [reach, bind_assoc]
  refine ensures_lift_bind fun decl hdecl => ?_
  refine ensures_bind (Q := fun _ s' => ∃ calls, s.calls.Grows p.scene calls ∧ s' = { s with calls })
    (ensures_discard (ensures_modifyGet ⟨_, CallGraph.addNode_grows, rfl⟩)) ?_
  rintro _ _ ⟨calls, hcalls, rfl⟩
  exact h (p.hasMethod_of_method hdecl) calls hcalls

/-- What the making of entries relies on: tables that are in order once the captures are there. -/
def Prepared (p : Problem) (k : Caller) (s : State) : Prop :=
  ∃ captures, State.Serves p k { s with captures }

theorem Prepared.of_serves (h : s.Serves p k) : Prepared p k s := ⟨s.captures, h⟩

instance : Preserves (Prepared p k) (Enlists p w) :=
  ⟨fun _ _ h ⟨captures, hs⟩ => ⟨captures, (h.steps captures).serves hs⟩⟩

/-- An entry will be instantiated, under the empty context unless contexts are made of functions. -/
theorem ensures_addEntry (hs : Prepared p k s) :
    Ensures (addEntry p m) s fun _ s' => Enlists p w s s' ∧
      (p.settings.policy ≠ .function → s'.Awaits (.empty, m)) := by
  by_cases hm : p.HasMethod m
  · obtain ⟨captures, hs⟩ := hs
    have hchoice : State.Chooses p { s with captures }
      (s.contexts.enter p.settings.policy p.settings.depth m) := .enter hm
    refine ensures_bind (Q := fun c s₁ => Enlists p w s s₁ ∧ Prepared p ⟨c, none⟩ s₁ ∧
      (p.settings.policy ≠ .function → c = .empty)) (ensures_modifyGet ?_) ?_
    · have hstep := Records.context hchoice
      refine ⟨⟨rfl, rfl, fun _ => .single (.records (.context (.enter hm))
        fun _ => introduces_enter hs.1.contexts hm)⟩,
        ⟨captures, (hstep.sane hs.1).1, ?_⟩, fun hpolicy => ?_⟩
      · exact ⟨(hchoice.chosen hs.1.contexts).known, by simp⟩
      · unfold ContextTable.enter Policy.entryItem?
        split <;> simp_all
    rintro c s₁ ⟨h₁, hs₁, hempty⟩
    refine ensures_reach_bind fun _ calls hcalls => ?_
    have h₂ : Enlists p w s₁ { s₁ with calls } := ⟨rfl, rfl, fun _ => .single (.calls hcalls)⟩
    refine ensures_bind (Q := fun _ s₃ => Enlists p w { s₁ with calls } s₃)
      (ensures_modify ?_) fun _ s₃ h₃ => ?_
    · split
      · exact Std.Refl.refl _
      · exact ⟨rfl, rfl, fun _ => .single (.records (.entry _))⟩
    have h₁₃ : Enlists p w s₁ s₃ := Trans.trans h₂ h₃
    obtain ⟨captures', hs₃⟩ := Preserves.preserves (P := Prepared p ⟨c, none⟩) _ _ h₁₃ hs₁
    have hc : s₃.contexts.Has c := hs₃.2.1
    refine (ensures_schedule (w := w) hm hc).mono fun _ s' ⟨h', hawaits⟩ => ?_
    refine ⟨Trans.trans h₁ (Trans.trans h₁₃ h'), fun hpolicy => ?_⟩
    exact hempty hpolicy ▸ hawaits
  · -- a method that the scene does not have is not reached
    exact ensures_modifyGet_bind (ensures_reach_bind fun hm' => absurd hm' hm)

theorem walks_addEntry : Walks p w k (addEntry p m) :=
  fun _ hs => (ensures_addEntry (.of_serves hs)).mono fun _ _ h => h.1.walks

theorem ensures_survey (hs : s.calls.Listed p.scene) :
    Ensures (survey p m) s fun captures s' => ∃ v, p.Surveys m v ∧ v.captures = captures ∧
      s.calls.Grows p.scene v.calls ∧
      v.calls = { s.calls with sites := v.calls.sites, stmtSites := v.calls.stmtSites } ∧
      CallGraph.AddsFor m s.calls v.calls ∧
      s' = { s with
        calls := v.calls, log := v.log, summaries := s.summaries.insert m v.summary } := by
  constructor
  · intro captures s' h
    simp only [survey] at h
    split at h
    · next v hv =>
      cases h
      have hadds := (Surveying.adds_body _ hs).1 hv
      exact ⟨v, ⟨s.calls, s.log, hs, hv⟩, rfl, hadds.calls, hadds.frame, hadds.own, rfl⟩
    · cases h
  · intro e s' h he
    simp only [survey] at h
    split at h
    · cases h
    · cases h
      cases he

/-- A method with a body has a summary from then on. -/
theorem ensures_summarize (hs : s.Serves p k) :
    Ensures (summarize p m) s fun _ s' => s.Steps p w s' ∧ (p.HasBody m → m ∈ s'.summaries) := by
  refine ensures_get_bind ?_
  split
  · next hold => exact ensures_pure ⟨.refl, fun _ => Std.TreeMap.contains_iff_mem.1 hold⟩
  next hnew =>
  rw [Std.TreeMap.contains_iff_mem] at hnew
  refine ensures_lift_bind fun decl hdecl => ?_
  split
  · next hnone =>
    refine (walks_lift (w := w) _).ensures_bind hs fun owner s₁ h₁ _ => ensures_pure ⟨h₁, ?_⟩
    rintro ⟨decl', hdecl', hbody⟩
    cases Except.ok.inj (hdecl'.symm.trans hdecl)
    simp [hbody] at hnone
  next hbody =>
  have hbody : p.HasBody m := ⟨decl, hdecl, by simpa using hbody⟩
  refine ensures_bind (ensures_survey hs.1.recorded.listed) ?_
  rintro captures _ ⟨v, hv, rfl, hcalls, -, -, rfl⟩
  have hcalls : s.Steps p w { s with calls := v.calls } := .single (.calls hcalls)
  -- the captures are taken up at once with the summary, as no entry depends on them
  have hsteps : s.Steps p w { s with
      calls := v.calls, log := v.log, summaries := s.summaries.insert m v.summary
      captures := if v.captures.isEmpty then s.captures else s.captures.insert m v.captures } :=
    hcalls.tail (.records (.summary hbody hnew hv rfl))
  have hmem : m ∈ s.summaries.insert m v.summary := mem_insert_map.2 (.inl rfl)
  split
  · next hne =>
    have hne : v.captures.isEmpty = false := by simpa using hne
    refine ensures_bind (Q := fun _ s₂ => Enlists p w { s with
      calls := v.calls, log := v.log, summaries := s.summaries.insert m v.summary } s₂) ?_ ?_
    · have hprepared : Prepared p k { s with
          calls := v.calls, log := v.log, summaries := s.summaries.insert m v.summary } :=
        ⟨_, hsteps.serves hs⟩
      refine Follows.forM (P := Prepared p k) (fun owner _ => .bind .get fun s => ?_) _ hprepared
      split
      · exact fun _ hs => (ensures_addEntry hs).mono fun _ _ h => h.1
      · exact .pure ()
    intro _ s₂ h₂
    refine ensures_modify_bind ?_
    refine ensures_pure ⟨?_, fun _ => h₂.summaries ▸ hmem⟩
    rw [hne] at hsteps
    have hlater := h₂.steps (s.captures.insert m v.captures)
    rw [h₂.captures]
    exact hsteps.trans hlater
  · next hempty =>
    have hempty : v.captures.isEmpty = true := by simpa using hempty
    rw [hempty] at hsteps
    exact ensures_pure ⟨hsteps, fun _ => hmem⟩

theorem ensures_isSingleton (hs : s.Serves p k) (hm : m ∈ s.summaries) :
    Ensures (isSingleton p m) s fun shared s' => s.Steps p w s' ∧ s'.Shares p m shared := by
  refine ensures_get_bind ?_
  split
  · next shared hknown =>
    exact ensures_pure ⟨.refl, hs.1.recorded.singletons m shared hknown⟩
  · refine ensures_lift_bind fun decl hdecl => ensures_get_bind ?_
    obtain ⟨summary, hsummary⟩ := Option.isSome_iff_exists.1 (Std.TreeMap.mem_iff_isSome_getElem?.1 hm)
    rw [hsummary]
    exact ensures_modify_bind (ensures_pure
      ⟨.single (.records (.singleton hdecl hsummary)), decl, summary, hdecl, hsummary, rfl⟩)

/-- The context of a callee is known from then on. -/
theorem ensures_calleeContext {site : StaticSite} {caller : ContextId} {object : Option NodeId}
    (hcallee : callee ∈ s.summaries) (hs : s.Serves p ⟨caller, site.id⟩)
    (hw : w = .expansion → object = none ∧ s.Stated site.id) :
    Ensures (calleeContext p site caller object callee) s fun c s' => s.Steps p w s' ∧
      s'.Serves p ⟨c, none⟩ ∧ s'.Selected p site.id caller object callee c := by
  refine ensures_bind (ensures_isSingleton (w := w) hs hcallee) ?_
  rintro shared s₁ ⟨h₁, hshared⟩
  have hs₁ := h₁.serves hs
  have hmethod : p.HasMethod callee := by
    obtain ⟨decl, hdecl, -⟩ := hs.1.recorded.summaries callee hcallee
    exact p.hasMethod_of_method hdecl
  split
  · next hyes =>
    refine ensures_pure ⟨h₁, ⟨hs₁.1, hs₁.1.contexts.has_empty, by simp⟩, shared, hshared, ?_⟩
    rw [if_pos hyes]
  · next hno =>
    have hchoice : s₁.Chooses p (s₁.contexts.select p.settings.policy p.settings.depth caller
        site.id object callee) := .select object hs₁.2 hmethod
    have hstep := Records.context hchoice
    have hchosen := hchoice.chosen hs₁.1.contexts
    have hintroduced : w = .expansion → ∀ x ∈ (s₁.contexts.select p.settings.policy p.settings.depth
        caller site.id object callee).table.items, x ∈ s₁.contexts.items ∨ s₁.Introduces p x := by
      intro h
      obtain ⟨rfl, hstated⟩ := hw h
      exact introduces_select hs₁.1.contexts hs₁.2.1 (hstated.retains (h₁.retains hs.1)) hmethod
    refine ensures_modifyGet ⟨h₁.tail (.records hstep hintroduced), ⟨(hstep.sane hs₁.1).1,
      hchosen.known, by simp⟩, shared, hshared, ?_⟩
    rw [if_neg hno]
    exact ⟨s₁.contexts, hs₁.2.1, .refl _, rfl⟩

/-- What follows on the choice of a context is done under that context. -/
theorem ensures_calleeContext_bind {site : StaticSite} {caller : ContextId}
    {object : Option NodeId} {f : ContextId → Run β} {R : β → State → Prop}
    (hbody : p.HasBody callee) (hs : s.Serves p ⟨caller, site.id⟩)
    (hw : w = .expansion → object = none ∧ s.Stated site.id)
    (hf : ∀ c s₁, s.Steps p w s₁ → s₁.Serves p ⟨c, none⟩ →
      s₁.Selected p site.id caller object callee c → Ensures (f c) s₁ R) : Ensures (do
      let _ ← summarize p callee
      let c ← calleeContext p site caller object callee
      f c) s R := by
  refine ensures_bind (ensures_summarize (w := w) hs) ?_
  rintro _ s₁ ⟨h₁, hmem⟩
  refine ensures_bind (ensures_calleeContext (w := w) (hmem hbody) (h₁.serves hs) fun h =>
    (hw h).imp_right fun hstated => hstated.retains (h₁.retains hs.1)) ?_
  rintro c s₂ ⟨h₂, hs₂, hc⟩
  exact hf c s₂ (h₁.trans h₂) hs₂ hc

end Schedule

section Binding

variable {site : StaticSite} {caller c : ContextId} {callee : MethodId} {stmt : Option StmtId}
  {args : List CallArg} {formals : List (Option ValueId)} {site? : Option SiteId}

theorem bindsEach_cons {a : CallArg} {v : ValueId}
    (ha : a.Carries p.scene → s.Flows p caller a c v) (h : s.BindsEach p caller c args formals) :
    s.BindsEach p caller c (a :: args) (some v :: formals) := by
  intro i b u hb hu hfirst hcarries
  cases i with
  | zero =>
    cases hb
    cases hu
    exact ha hcarries
  | succ i => exact h i b u hb hu (fun j hj => hfirst (j + 1) (Nat.succ_lt_succ hj)) hcarries

/-- Nothing is bound from a formal without a local on. -/
theorem bindsEach_of_not_cons (h : ∀ a as v vs, args = a :: as → formals = some v :: vs → False) :
    s.BindsEach p caller c args formals := by
  intro i a v ha hv hfirst _
  obtain ⟨b, bs, rfl⟩ : ∃ b bs, args = b :: bs :=
    List.exists_cons_of_ne_nil (by rintro rfl; simp at ha)
  obtain ⟨f, fs, rfl⟩ : ∃ f fs, formals = f :: fs :=
    List.exists_cons_of_ne_nil (by rintro rfl; simp at hv)
  obtain ⟨u, hu⟩ : ∃ u, f = some u := by
    cases i with
    | zero => exact ⟨v, by simpa using hv⟩
    | succ i => simpa using hfirst 0 (Nat.succ_pos i)
  exact (h b bs u fs rfl (by rw [hu])).elim

theorem ensures_bindEach (hs : s.Sane p) :
    Ensures (bindEach p stmt caller c args formals) s fun _ s' => s.Steps p w s' ∧
      s'.BindsEach p caller c args formals := by
  fun_induction bindEach generalizing s with
  | case1 a args formal formals ih =>
    refine ensures_bind (ensures_argument (w := w) hs) ?_
    rintro source? s₁ ⟨h₁, hsource⟩
    have hs₁ := h₁.sane hs
    cases source? with
    | none =>
      refine (ih hs₁).mono fun _ s' ⟨h', hbinds⟩ => ⟨h₁.trans h', bindsEach_cons ?_ hbinds⟩
      intro hcarries
      obtain ⟨n, hn, -⟩ := hsource hcarries
      cases hn
    | some source =>
      refine ensures_bind (ensures_value (w := w) hs₁) ?_
      rintro target s₂ ⟨h₂, htarget⟩
      have hs₂ := h₂.sane hs₁
      refine ensures_bind (ensures_flow (w := w) (by decide) hs₂) ?_
      rintro new s₃ ⟨h₃, hedge⟩
      have hs₃ := h₃.sane hs₂
      refine ensures_bind (ih hs₃) ?_
      rintro rest s' ⟨h', hbinds⟩
      refine ensures_pure ⟨((h₁.trans h₂).trans h₃).trans h', bindsEach_cons ?_ hbinds⟩
      intro hcarries
      obtain ⟨n, hn, hat⟩ := hsource hcarries
      cases hn
      have hr₃ := (h₂.trans h₃).retains hs₁
      have hflows : s₃.Flows p caller a c formal :=
        ⟨source, target, hat.retains hr₃, (h₃.retains hs₂).nodeOf _ _ _ htarget, .copy, rfl, hedge⟩
      exact hflows.retains (h'.retains hs₃)
  | case2 args formals hno => exact ensures_pure ⟨.refl, bindsEach_of_not_cons hno⟩

/-- Each argument flows into its formal, up to the first formal without a local. -/
theorem ensures_bindArguments {skip offset : Nat} (hs : s.Sane p) :
    Ensures (bindArguments p site caller callee c skip offset) s fun _ s' => s.Steps p w s' ∧
      ∀ args formals, site.args = some args → p.scene.parameterLocals callee = .ok formals →
        s'.BindsEach p caller c (args.drop skip) (formals.toList.drop offset) := by
  unfold bindArguments
  split
  · next hnone =>
    refine ensures_pure ⟨.refl, fun args formals hargs => ?_⟩
    rw [hnone] at hargs
    cases hargs
  · next args hargs =>
    refine ensures_lift_bind fun formals hformals => ?_
    refine (ensures_bindEach (w := w) hs).mono fun _ s' ⟨h', hbinds⟩ => ⟨h', ?_⟩
    intro args' formals' hargs' hformals'
    cases Option.some.inj (hargs.symm.trans hargs')
    cases Except.ok.inj (hformals.symm.trans hformals')
    exact hbinds

theorem walks_bindArguments {skip offset : Nat} :
    Walks p w k (bindArguments p site caller callee c skip offset) :=
  fun _ hs => (ensures_bindArguments hs.1).mono fun _ _ h => h.1

/-- What is returned at a statement flows into the target. -/
theorem ensures_bindReturn {target : NodeId} {i : StmtId} (hs : s.Sane p) :
    Ensures (bindReturn p callee c target i) s fun _ s' => s.Steps p w s' ∧
      ∀ decl v name type, p.scene.stmt i = .ok decl → decl.returned? = some v →
        p.scene.value v = .ok (.var name type) →
        ∃ x, s'.graph.nodeOf? p.scene c v = .ok (some x) ∧ s'.graph.Edge x target .copy := by
  refine ensures_lift_bind fun decl hdecl => ?_
  split
  · next hnone =>
    refine ensures_pure ⟨.refl, fun decl' v _ _ hdecl' hv => ?_⟩
    cases Except.ok.inj (hdecl.symm.trans hdecl')
    rw [hnone] at hv
    cases hv
  next v hreturned =>
  refine ensures_lift_bind fun value hvalue => ?_
  have hother : ∀ {s' : State}, (∀ name type, value ≠ .var name type) →
      ∀ decl' u name type, p.scene.stmt i = .ok decl' → decl'.returned? = some u →
        p.scene.value u = .ok (.var name type) →
        ∃ x, s'.graph.nodeOf? p.scene c u = .ok (some x) ∧ s'.graph.Edge x target .copy := by
    intro s' hno decl' u name type hdecl' hu hvar
    cases Except.ok.inj (hdecl.symm.trans hdecl')
    cases Option.some.inj (hreturned.symm.trans hu)
    exact absurd (Except.ok.inj (hvalue.symm.trans hvar)) (hno name type)
  split
  · refine ensures_bind (ensures_value (w := w) hs) ?_
    rintro source s₁ ⟨h₁, hsource⟩
    have hs₁ := h₁.sane hs
    refine ensures_bind (ensures_flow (w := w) (by decide) hs₁) ?_
    rintro _ s₂ ⟨h₂, hedge⟩
    refine ensures_pure ⟨h₁.trans h₂, fun decl' u _ _ hdecl' hu _ => ?_⟩
    cases Except.ok.inj (hdecl.symm.trans hdecl')
    cases Option.some.inj (hreturned.symm.trans hu)
    exact ⟨source, (h₂.retains hs₁).nodeOf _ _ _ hsource, hedge⟩
  · exact ensures_pure ⟨.refl, hother nofun⟩
  · exact ensures_pure ⟨.refl, hother nofun⟩
  · exact ensures_throw nofun

/-- All returned locals flow into the target of a call. -/
theorem ensures_bindReturns (hs : s.Sane p) :
    Ensures (bindReturns p site caller callee c) s fun _ s' => s.Steps p w s' ∧
      (∀ target, site.target = some target → s'.HasNode p caller target) ∧
      ∀ target v, site.target = some target → p.Returns callee v →
        s'.Flows p c (.value v) caller target := by
  refine ensures_bind (ensures_targetNode (w := w) hs) ?_
  rintro target? s₁ ⟨h₁, htarget⟩
  have hs₁ := h₁.sane hs
  cases target? with
  | none =>
    have hno : ∀ target, site.target ≠ some target := by
      intro target ht
      obtain ⟨n, hn, -⟩ := htarget target ht
      cases hn
    exact ensures_pure ⟨h₁, fun target ht => absurd ht (hno target),
      fun target v ht _ => absurd ht (hno target)⟩
  | some y =>
    refine ensures_lift_bind fun stmts hstmts => ?_
    refine ensures_bind (ensures_mapM_each (I := fun t => s₁.Steps p w t)
      (P := fun i t => ∀ decl v name type, p.scene.stmt i = .ok decl → decl.returned? = some v →
        p.scene.value v = .ok (.var name type) →
        ∃ x, t.graph.nodeOf? p.scene c v = .ok (some x) ∧ t.graph.Edge x y .copy)
      stmts .refl ?_) ?_
    · intro i _ t ht
      have hst := ht.sane hs₁
      refine (ensures_bindReturn (w := w) hst).mono fun _ t' ⟨h', hreturn⟩ =>
        ⟨ht.trans h', hreturn, fun j hj decl v name type hdecl hv hvar => ?_⟩
      obtain ⟨x, hx, hedge⟩ := hj decl v name type hdecl hv hvar
      have hr := h'.retains hst
      exact ⟨x, hr.nodeOf _ _ _ hx, hr.graph.edge hedge⟩
    · rintro _ s₂ ⟨h₂, hall, -⟩
      have hkeeps := (h₂.retains hs₁).nodeOf
      refine ensures_pure ⟨h₁.trans h₂, fun target ht => ?_, fun target v ht hv => ?_⟩
      · obtain ⟨n, -, hn⟩ := htarget target ht
        exact ⟨n, hkeeps _ _ _ hn⟩
      obtain ⟨n, hn, hy⟩ := htarget target ht
      cases hn
      obtain ⟨stmts', i, decl, name, type, hstmts', hi, hdecl, hreturned, hvar⟩ := hv
      cases Except.ok.inj (hstmts.symm.trans hstmts')
      obtain ⟨x, hx, hedge⟩ := hall i hi decl v name type hdecl hreturned hvar
      exact ⟨x, y, hx, hkeeps _ _ _ hy, .copy, rfl, hedge⟩

theorem walks_bindReturns : Walks p w k (bindReturns p site caller callee c) :=
  fun _ hs => (ensures_bindReturns hs.1).mono fun _ _ h => h.1

/-- The node of a receiver is one of the graph. -/
theorem ensures_receiverNode (hs : s.Sane p) :
    Ensures (receiverNode p callee c) s fun target? s' => s.Steps p w s' ∧
      (∀ target ∈ target?, target.index < s'.graph.nodes.size) ∧
      ∀ decl, p.scene.method callee = .ok decl → decl.isStatic = false →
        ∃ target ∈ target?, ∃ v, p.scene.receiverLocal? callee = .ok (some v) ∧
          s'.graph.nodeOf? p.scene c v = .ok (some target) := by
  refine ensures_lift_bind fun decl hdecl => ?_
  split
  · next hstatic =>
    refine ensures_pure ⟨.refl, by simp, fun decl' hdecl' hno => ?_⟩
    cases Except.ok.inj (hdecl.symm.trans hdecl')
    simp [hstatic] at hno
  refine ensures_lift_bind fun receiver? hreceiver => ?_
  split
  · exact ensures_throw nofun
  next v =>
  refine ensures_lift_bind fun stmt? _ => ?_
  refine ensures_bind (ensures_value (w := w) hs) ?_
  rintro n s₁ ⟨h₁, hn⟩
  refine ensures_pure ⟨h₁, ?_, fun _ _ _ => ⟨n, rfl, v, hreceiver, hn⟩⟩
  rintro target ⟨⟩
  exact nodeOf?_lt_size (h₁.sane hs).graph hn

theorem walks_bindReceiverTo {source : NodeId} :
    Walks p w k (bindReceiverTo p source callee c stmt) := by
  intro s hs
  refine ensures_bind (ensures_receiverNode (w := w) hs.1) ?_
  rintro target? s₁ ⟨h₁, -, -⟩
  cases target? with
  | none => exact ensures_pure h₁
  | some target =>
    refine ensures_bind (ensures_flow (w := w) (by decide) (h₁.sane hs.1)) ?_
    exact fun _ s₂ h₂ => ensures_pure (h₁.trans h₂.1)

/-- The base of a call flows into the receiver of its callee. -/
theorem ensures_bindReceiverToBase {target : NodeId} (hs : s.Sane p) :
    Ensures (bindReceiverToBase p site caller callee target) s fun _ s' => s.Steps p w s' ∧
      ∀ base, site.receiver = some base →
        ∃ x, s'.graph.nodeOf? p.scene caller base = .ok (some x) ∧ s'.graph.Edge x target .self := by
  unfold bindReceiverToBase
  split
  · next hnone =>
    have hno : ∀ base, site.receiver = some base → ∃ x,
        s.graph.nodeOf? p.scene caller base = .ok (some x) ∧ s.graph.Edge x target .self := by
      intro base hbase
      rw [hnone] at hbase
      cases hbase
    refine ensures_lift_bind fun decl _ => ?_
    split
    · exact ensures_bind (Q := fun _ _ => False) (ensures_throw nofun) fun _ _ h => h.elim
    · exact ensures_pure ⟨.refl, hno⟩
  · next v hv =>
    refine ensures_lift_bind fun value _ => ?_
    extract_lets finish
    have hfinish : Ensures (finish ()) s fun _ s' => s.Steps p w s' ∧
        ∀ base, site.receiver = some base → ∃ x,
          s'.graph.nodeOf? p.scene caller base = .ok (some x) ∧ s'.graph.Edge x target .self := by
      refine ensures_bind (ensures_value (w := w) hs) ?_
      rintro source s₁ ⟨h₁, hsource⟩
      have hs₁ := h₁.sane hs
      refine ensures_bind (ensures_flow (w := w) (by decide) hs₁) ?_
      rintro _ s₂ ⟨h₂, hedge⟩
      refine ensures_pure ⟨h₁.trans h₂, fun base hbase => ?_⟩
      cases Option.some.inj (hv.symm.trans hbase)
      exact ⟨source, (h₂.retains hs₁).nodeOf _ _ _ hsource, hedge⟩
    split
    · exact ensures_bind (Q := fun _ _ => False) (ensures_throw nofun) fun _ _ h => h.elim
    · exact hfinish

theorem ensures_bindReceiver {object : Option NodeId} (hs : s.Sane p) :
    Ensures (bindReceiver p site caller object callee c) s fun _ s' => s.Steps p w s' ∧
      ∀ decl, p.scene.method callee = .ok decl → decl.isStatic = false →
        ∃ v y, p.scene.receiverLocal? callee = .ok (some v) ∧
          s'.graph.nodeOf? p.scene c v = .ok (some y) ∧ s.Equips p site caller object y s' := by
  refine ensures_bind (ensures_receiverNode (w := w) hs) ?_
  rintro target? s₁ ⟨h₁, hrange, hreceiver⟩
  have hs₁ := h₁.sane hs
  cases target? with
  | none =>
    refine ensures_pure ⟨h₁, fun decl hdecl hstatic => ?_⟩
    obtain ⟨n, hn, -⟩ := hreceiver decl hdecl hstatic
    cases hn
  | some target =>
    refine Ensures.mono (Q := fun _ s' => s₁.Steps p w s' ∧ s₁.Equips p site caller object target s') ?_
      fun _ s' ⟨h', hequips⟩ => ⟨h₁.trans h', fun decl hdecl hstatic => ?_⟩
    · cases object with
      | none =>
        refine (ensures_bindReceiverToBase (w := w) hs₁).mono fun _ s₂ ⟨h₂, hbase⟩ =>
          ⟨h₂, fun _ => hbase, by simp, ?_⟩
        rintro x ⟨o, a, f, ho, -⟩
        cases ho
      | some o =>
        refine ensures_node_bind fun a ha => ?_
        have hbears : ∀ x, s₁.Bears (some o) x → ∃ f, a.function? = some f ∧ f.receiver = some x := by
          rintro x ⟨_, b, f, ⟨⟩, hb, hf, hx⟩
          cases Option.some.inj (ha.symm.trans hb)
          exact ⟨f, hf, hx⟩
        split
        · next hno =>
          refine ensures_modify_bind (ensures_pure ⟨.single (.update (hrange target rfl) ha.lt_size),
            nofun, ?_, fun x hx => ?_⟩)
          · rintro _ ⟨⟩
            exact .inr (.inr ⟨_, by rw [getElem?_insert, if_pos rfl], by simp⟩)
          · obtain ⟨f, hf, -⟩ := hbears x hx
            rw [hno] at hf
            cases hf
        · next f hf =>
          have hfunction : s₁.graph.IsFunction o := ⟨a, ha, by simp [Node.isFunction, hf]⟩
          have hreceiver : ∀ x, s₁.Bears (some o) x → f.receiver = some x := by
            intro x hx
            obtain ⟨f', hf', hx⟩ := hbears x hx
            cases Option.some.inj (hf.symm.trans hf')
            exact hx
          split
          · next hnone =>
            refine ensures_pure ⟨.refl, nofun, by simpa using .inl hfunction, fun x hx => ?_⟩
            rw [hreceiver x hx] at hnone
            cases hnone
          · next bound hbound =>
            refine ensures_bind (ensures_flow (w := w) (by decide) hs₁) ?_
            rintro _ s₂ ⟨h₂, hedge⟩
            refine ensures_pure ⟨h₂, nofun, ?_, fun x hx => ?_⟩
            · simpa using .inl ((h₂.retains hs₁).graph.isFunction hfunction)
            · cases Option.some.inj (hbound.symm.trans (hreceiver x hx))
              exact ⟨.self, rfl, hedge⟩
    · obtain ⟨n, hn, v, hv, hy⟩ := hreceiver decl hdecl hstatic
      cases hn
      exact ⟨v, target, hv, (h'.retains hs₁).nodeOf _ _ _ hy,
        { hequips with bound := fun x hx => hequips.bound x (hx.retains (h₁.retains hs)) }⟩

/-- A callee that is entered will be instantiated. -/
theorem ensures_enter (hs : s.Serves p ⟨c, site?⟩) :
    Ensures (enter p callee c) s fun _ s' => s.Steps p w s' ∧ s'.Awaits (c, callee) := by
  refine ensures_reach_bind fun hm calls hcalls => ?_
  have h₁ : s.Steps p w { s with calls } := .single (.calls hcalls)
  refine Ensures.mono (ensures_schedule (w := w) hm (h₁.serves hs).2.1) ?_
  exact fun _ s' ⟨h', hawaits⟩ => ⟨h₁.trans h'.walks, hawaits⟩

theorem walks_enter : Walks p w ⟨c, site?⟩ (enter p callee c) :=
  fun _ hs => (ensures_enter hs).mono fun _ _ h => h.1

end Binding

theorem walks_callPointer {origin : StaticSite} {c : ContextId} {site? : Option SiteId}
    {pointer : NodeId} {args : List CallArg} :
    Walks p w ⟨c, site?⟩ (callPointer origin c pointer args) := by
  intro s hs
  refine ensures_get_bind ?_
  split
  · exact ensures_pure .refl
  · refine ensures_bind (Q := fun site s₁ => s.Steps p w s₁ ∧ s₁.Mute site) (ensures_modifyGet
      ⟨.single (.calls (CallGraph.grows_sites SiteTable.addDynamic_grows)), _,
        SiteTable.dynamic?_addDynamic, rfl, rfl⟩) ?_
    rintro site s₁ ⟨h₁, hmute⟩
    refine ensures_bind (Q := fun _ s₂ => s.Steps p w s₂ ∧ s₂.Mute site)
      (ensures_modify ⟨h₁.tail (.records (.synthetic _ site)), hmute⟩) ?_
    rintro _ s₂ ⟨h₂, hmute⟩
    refine ensures_node_bind fun a ha => ?_
    split
    · have hcall : s₂.extent.HasCall (site, c) := ⟨hmute.lt_size, (h₂.serves hs).2.1⟩
      refine ensures_attach_bind (p := p) (w := w) ?_ (fun _ _ => .inl) hcall (.inr hmute)
        fun s₃ h₃ => ?_
      · intro i e
        simp only [PointerInfo.calls, List.mem_append, List.mem_singleton]
        grind
      · exact ensures_pure (h₂.tail h₃)
    · exact ensures_modify_bind (ensures_pure (h₂.tail (.records (.log _))))

end PointsTo.Run
