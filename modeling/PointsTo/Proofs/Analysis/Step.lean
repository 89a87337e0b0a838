import Mathlib.Logic.Relation
import PointsTo.Proofs.Analysis.Extent

/-! What an analysis can do between two solutions, step by step. -/
namespace PointsTo

/-- How much a part of a round may do. -/
inductive Phase where
  /-- Methods are taken from the agenda, and calls on no object are made for them. -/
  | expansion
  /-- Whatever is done in any phase. -/
  | free
  /-- The calls that are attached call function values and have no target. -/
  | dispatch
  /-- Besides, no object is given to a node. -/
  | quiet
deriving DecidableEq

/-- Whether methods are instantiated. -/
def Phase.instantiates : Phase → Bool
  | expansion | free => true
  | dispatch | quiet => false

theorem Phase.ne_expansion {w : Phase} (h : w.instantiates = false) : w ≠ .expansion := by
  rintro rfl
  cases h

def PointerInfo.calls (i : PointerInfo) : List (SiteId × ContextId) :=
  i.dynamicCalls ++ i.unknownCalls ++ i.instanceCalls

/-- The nodes that have to pass on their sets because of a new edge. -/
structure FlowGraph.Wakes (g : FlowGraph) (a b : NodeId) (k : EdgeKind)
    (Woken : NodeId → Prop) : Prop where
  copies : k.isCopyLike = true → Woken a
  loads : k = .load → ∀ base key, g.IsFieldRef a base key → Woken base
  writes : k = .write → ∀ base key, g.IsFieldRef b base key → Woken base

namespace State

variable {i : SiteId}

/-- Whether a call site calls a function value and has no target. -/
def Mute (s : State) (i : SiteId) : Prop :=
  ∃ site, s.calls.sites.dynamic? i = some site ∧ site.target = none ∧
    site.signature.name = Name.pointerCall

theorem Mute.target {s : State} {site : DynamicSite} (h : s.Mute i)
    (hsite : s.calls.sites.dynamic? i = some site) : site.target = none := by
  obtain ⟨site', hsite', htarget, -⟩ := h
  cases Option.some.inj (hsite'.symm.trans hsite)
  exact htarget

theorem Mute.lt_size {s : State} (h : s.Mute i) : i.index < s.extent.sites := by
  obtain ⟨site, hsite, -⟩ := h
  exact SiteTable.lt_size_of_dynamic? hsite

/-- Steps that touch neither the flow of objects nor the dispatch of calls. -/
inductive Records (p : Problem) (s : State) : State → Prop where
  | log (log : Array Notice) : Records p s { s with log }
  | context {choice : ContextTable.Choice} : s.Chooses p choice →
      Records p s { s with
        contexts := choice.table, log := choice.notice.elim s.log s.log.push }
  | summary {m : MethodId} {v : Survey} : p.HasBody m → m ∉ s.summaries → p.Surveys m v →
      v.calls = s.calls →
      Records p s { s with
        summaries := s.summaries.insert m v.summary
        captures := if v.captures.isEmpty then s.captures else s.captures.insert m v.captures
        log := v.log }
  | singleton {m : MethodId} {decl : MethodDecl} {summary : Summary} :
      p.scene.method m = .ok decl → s.summaries[m]? = some summary →
      Records p s { s with
        singletons := s.singletons.insert m (decl.isStatic && summary.sharesResult) }
  | entry (a : Activation) : Records p s { s with entries := s.entries.push a }
  | schedule {a : Activation} : a ∉ s.instantiated → s.extent.HasActivation p a →
      Records p s { s with scheduled := s.scheduled.insert a.2, agenda := s.agenda.push a }
  | link (a : Activation) : Records p s { s with links := s.links.push a }
  | synthetic (key : SiteId × NodeId × List CallArg) (site : SiteId) :
      Records p s { s with synthetic := (key, site) :: s.synthetic }

/-- Whether some summary states a call. -/
def Stated (s : State) (i : SiteId) : Prop :=
  ∃ (m : MethodId) (summary : Summary), s.summaries[m]? = some summary ∧ i ∈ summary.staticCalls

/-- What the contexts of an expansion are made of: no objects, and only calls that are stated. -/
def Introduces (p : Problem) (s : State) : ContextItem → Prop
  | .callSite i m => s.Stated i ∧ p.HasMethod m
  | .object _ => False
  | .function m => p.HasMethod m

/-- One step of a phase, apart from the bookkeeping of dispatches. -/
inductive Step (p : Problem) (w : Phase) (s : State) : State → Prop where
  | records {s' : State} (h : s.Records p s')
      (introduced : w = .expansion → ∀ x ∈ s'.contexts.items, x ∈ s.contexts.items ∨ s.Introduces p x :=
        by exact fun _ _ hx => .inl hx) : Step p w s s'
  | nodes {g : FlowGraph} : s.graph.Grows p.scene g → Step p w s { s with graph := g }
  | edge {a b : NodeId} {k : EdgeKind} {stmt : Option StmtId} {woken : Std.TreeSet NodeId} :
      k ≠ .address → s.graph.hasEdge a b k = false → a.index < s.graph.nodes.size →
      b.index < s.graph.nodes.size → (∀ n ∈ s.retrigger, n ∈ woken) →
      s.graph.Wakes a b k (· ∈ woken) →
      Step p w s { s with graph := s.graph.withEdge a b k stmt, retrigger := woken }
  | address {o b : NodeId} {stmt : Option StmtId} :
      w ≠ .quiet → s.graph.hasEdge o b .address = false → o.index < s.graph.nodes.size →
      b.index < s.graph.nodes.size →
      Step p w s { s with graph := s.graph.withEdge o b .address stmt }
  | attach {n : NodeId} {d : SiteId × ContextId} {f : PointerInfo → PointerInfo} :
      (∀ i e, e ∈ (f i).calls ↔ e ∈ i.calls ∨ e = d) →
      (∀ i e, e ∈ (f i).instanceCalls → e ∈ i.instanceCalls ∨ s.calls.IsStatic e.1) →
      s.extent.HasCall d → (w.instantiates = true ∨ s.Mute d.1) →
      Step p w s { s with
        graph := s.graph.modifyNode n (·.mapPointer f), retrigger := s.retrigger.insert n }
  | mark {n : NodeId} {f : PointerInfo → PointerInfo} : (∀ i, (f i).calls = i.calls) →
      (∀ i, (f i).instanceCalls = i.instanceCalls) →
      Step p w s { s with graph := s.graph.modifyNode n (·.mapPointer f) }
  | update {n o : NodeId} : n.index < s.graph.nodes.size → o.index < s.graph.nodes.size →
      Step p w s { s with
        updates :=
          s.updates.insert n (((s.updates[n]?).getD p.settings.collection.empty).insert o).2 }
  | calls {calls : CallGraph} : s.calls.Grows p.scene calls → Step p w s { s with calls }

/-- One step of the work on the agenda or of the dispatch of calls. -/
inductive Turn (p : Problem) (w : Phase) (s : State) : State → Prop where
  | step {s' : State} : s.Step p w s' → Turn p w s s'
  | skip {a : Activation} {agenda : Queue Activation} : w.instantiates = true →
      s.agenda.pop? = some (a, agenda) → a ∈ s.instantiated → Turn p w s { s with agenda }
  | take {a : Activation} {agenda : Queue Activation} : w.instantiates = true →
      s.agenda.pop? = some (a, agenda) → a ∉ s.instantiated →
      Turn p w s { s with agenda, instantiated := s.instantiated.insert a }
  | claim {d : Dispatch} : s.extent.HasDispatch d →
      Turn p w s { s with resolved := s.resolved.insert d }
  | postpone {d : Dispatch} {site : DynamicSite} : s.extent.HasDispatch d →
      s.calls.sites.dynamic? d.1 = some site → (w = .quiet → s.Mute d.1) →
      Turn p w s { s with unresolved := s.unresolved.push d }
  | throughField {d : Dispatch} : s.extent.HasDispatch d →
      Turn p w s { s with fieldDispatched := s.fieldDispatched.insert d }

/-- Any number of turns. -/
abbrev Turns (p : Problem) (w : Phase) : State → State → Prop := Relation.ReflTransGen (Turn p w)

/-- Any number of steps. -/
abbrev Steps (p : Problem) (w : Phase) : State → State → Prop := Relation.ReflTransGen (Step p w)

variable {p : Problem} {w : Phase} {s s' s'' : State} {m : MethodId} {d : SiteId × ContextId}
  {g : FlowGraph} {n : NodeId} {f : PointerInfo → PointerInfo} {Q : SiteId × ContextId → Prop}

theorem Steps.trans (h : s.Steps p w s') (h' : s'.Steps p w s'') : s.Steps p w s'' :=
  Relation.ReflTransGen.trans h h'

theorem Turns.trans (h : s.Turns p w s') (h' : s'.Turns p w s'') : s.Turns p w s'' :=
  Relation.ReflTransGen.trans h h'

/-- The context of an entry is made of what there was and of methods. -/
theorem introduces_enter (hs : s.contexts.Valid p.settings.depth) (hm : p.HasMethod m) :
    ∀ x ∈ (s.contexts.enter p.settings.policy p.settings.depth m).table.items,
      x ∈ s.contexts.items ∨ s.Introduces p x := by
  intro x hx
  refine ((ContextTable.enter_chosen hs).items x hx).imp_right fun hitem => ?_
  unfold Policy.entryItem? at hitem
  split at hitem
  · cases hitem
    exact hm
  · cases hitem

theorem introduces_select {caller : ContextId} {callee : MethodId}
    (hs : s.contexts.Valid p.settings.depth) (hcaller : s.contexts.Has caller) (hi : s.Stated i)
    (hcallee : p.HasMethod callee) :
    ∀ x ∈ (s.contexts.select p.settings.policy p.settings.depth caller i none callee).table.items,
      x ∈ s.contexts.items ∨ s.Introduces p x := by
  intro x hx
  refine ((ContextTable.select_chosen hs hcaller).items x hx).imp_right fun hitem => ?_
  unfold Policy.item? at hitem
  split at hitem
  · cases hitem
    exact ⟨hi, hcallee⟩
  · cases hitem
  · cases hitem
    exact hcallee

theorem node_registers_iff {a : Node} :
    a.Registers d ↔ ∃ info, a.pointer? = some info ∧ d ∈ info.calls := by
  simp only [Node.Registers, PointerInfo.calls, List.mem_append, or_assoc]

theorem registers_iff_attaches : g.Registers n d ↔ g.Attaches PointerInfo.calls n d := by
  simp only [FlowGraph.Registers, FlowGraph.Attaches, node_registers_iff, exists_and_left]

/-- The calls that are attached to a node after a change of what is attached to one of them. -/
theorem attaches_mapPointer {m : NodeId} {calls : PointerInfo → List (SiteId × ContextId)}
    (hf : ∀ i e, e ∈ calls (f i) → e ∈ calls i ∨ Q e)
    (h : (g.modifyNode m (·.mapPointer f)).Attaches calls n d) :
    g.Attaches calls n d ∨ n = m ∧ Q d := by
  obtain ⟨a', info, ha', hinfo, hd⟩ := h
  obtain ⟨a, ha, rfl⟩ := FlowGraph.at_modifyNode.1 ha'
  split at hinfo
  · next hn =>
    rw [Node.pointer?_mapPointer] at hinfo
    obtain ⟨i, hi, rfl⟩ := Option.map_eq_some_iff.1 hinfo
    exact (hf i d hd).imp (fun hd => ⟨a, i, ha, hi, hd⟩) fun hd => ⟨hn, hd⟩
  · exact .inl ⟨a, info, ha, hinfo, hd⟩

theorem registers_mapPointer {m : NodeId} (hf : ∀ i e, e ∈ (f i).calls → e ∈ i.calls ∨ Q e)
    (h : (g.modifyNode m (·.mapPointer f)).Registers n d) : g.Registers n d ∨ n = m ∧ Q d := by
  rw [registers_iff_attaches] at h ⊢
  exact attaches_mapPointer hf h

/-- New nodes have no calls that wait for objects. -/
theorem attaches_of_keeps {g' : FlowGraph}
    (hkeeps : ∀ n a, g.At n a → ∃ a', g'.At n a' ∧ a.Keeps a' ∧ a'.pointer? = a.pointer?)
    (hregisters : g'.Registers n d → g.Registers n d)
    (h : g'.Attaches PointerInfo.instanceCalls n d) : g.Attaches PointerInfo.instanceCalls n d := by
  obtain ⟨a', info, ha', hinfo, hd⟩ := h
  obtain ⟨a, ha, -⟩ := hregisters ⟨a', ha', info, hinfo, .inr (.inr hd)⟩
  obtain ⟨b, hb, -, hsame⟩ := hkeeps n a ha
  cases Option.some.inj (hb.symm.trans ha')
  exact ⟨a, info, ha, hsame.symm.trans hinfo, hd⟩

theorem summaries_insert {k : MethodId} {summary old : Summary} (hm : m ∉ s.summaries)
    (h : s.summaries[k]? = some old) : (s.summaries.insert m summary)[k]? = some old := by
  rw [getElem?_insert, if_neg, h]
  rintro rfl
  exact hm (Std.TreeMap.mem_iff_isSome_getElem?.2 (by simp [h]))

/-- A new summary comes with the captures of its method. -/
theorem Surveyed.summary {v : Survey} (h : s.Surveyed p) (hbody : p.HasBody m)
    (hm : m ∉ s.summaries) (hv : p.Surveys m v) (hcalls : v.calls = s.calls) :
    State.Surveyed p { s with
      summaries := s.summaries.insert m v.summary
      captures := if v.captures.isEmpty then s.captures else s.captures.insert m v.captures
      log := v.log } where
  summaries k hk := by
    rcases mem_insert_map.1 hk with rfl | hk
    · exact hbody
    · exact h.summaries k hk
  captures k hk := by
    dsimp only at hk
    refine mem_insert_map.2 ?_
    split at hk
    · exact .inr (h.captures k hk)
    · exact (mem_insert_map.1 hk).imp_right (h.captures k)
  described k known hk := by
    rw [getElem?_insert] at hk
    split at hk
    · next heq =>
      subst heq
      cases hk
      refine ⟨v, hv, rfl, ?_, hcalls ▸ .refl _⟩
      have hno : s.captures[m]? = none :=
        Std.TreeMap.getElem?_eq_none fun hin => hm (h.captures m hin)
      dsimp only
      split
      · next hempty => simp [hno, List.isEmpty_iff.1 hempty]
      · simp
    · next hne =>
      obtain ⟨v', hv', hsame, hcaptures, hgrows⟩ := h.described k known hk
      refine ⟨v', hv', hsame, hcaptures.trans ?_, hgrows⟩
      dsimp only
      split
      · rfl
      · rw [getElem?_insert, if_neg hne]
  singletons k shared hk := by
    obtain ⟨decl, old, hdecl, hold, rfl⟩ := h.singletons k shared hk
    exact ⟨decl, old, hdecl, summaries_insert hm hold, rfl⟩
  listed := h.listed
  static k known hk := by
    rw [getElem?_insert] at hk
    split at hk
    · next heq =>
      subst heq
      cases hk
      exact hcalls ▸ hv.static
    · exact h.static k known hk

theorem Surveyed.calls {calls : CallGraph} (h : s.Surveyed p) (hc : s.calls.Grows p.scene calls) :
    State.Surveyed p { s with calls } where
  summaries := h.summaries
  described m summary hm := by
    obtain ⟨v, hv, hsame, hcaptures, hgrows⟩ := h.described m summary hm
    exact ⟨v, hv, hsame, hcaptures, hgrows.trans hc⟩
  captures := h.captures
  singletons := h.singletons
  listed := hc.listed h.listed
  static m summary hm i hi := (h.static m summary hm i hi).mono hc

theorem Records.sane (h : s.Records p s') (hs : s.Sane p) : s'.Sane p ∧ s.extent ≤ s'.extent := by
  have hr := hs.recorded
  cases h with
  | @context choice h =>
    have hc := h.chosen hs.contexts
    have hle : s.extent ≤ ⟨s.extent.nodes, s.extent.sites, choice.table.contexts.size⟩ :=
      ⟨le_rfl, le_rfl, hc.keeps.size_le⟩
    refine ⟨⟨hs.graph, hs.indexed, hs.sites, hc.valid, ?_⟩, hle⟩
    have hr' := hr.mono hle
    refine { hr' with items := fun x hx => ?_ }
    exact (hc.items x hx).elim (hr'.items x) fun hx => hx.mono hle
  | schedule _ ha =>
    refine ⟨⟨hs.graph, hs.indexed, hs.sites, hs.contexts, { hr with agenda := fun b hb => ?_ }⟩, le_rfl⟩
    rw [Queue.toList_push, List.mem_append, List.mem_singleton] at hb
    exact hb.elim (hr.agenda b) fun hb => hb ▸ ha
  | summary hbody hnew hv hcalls =>
    exact ⟨⟨hs.graph, hs.indexed, hs.sites, hs.contexts, { hr with
      toSurveyed := hr.toSurveyed.summary hbody hnew hv hcalls }⟩, le_rfl⟩
  | @singleton m decl summary hdecl hsummary =>
    refine ⟨⟨hs.graph, hs.indexed, hs.sites, hs.contexts, { hr with singletons := fun k found hk => ?_ }⟩,
      le_rfl⟩
    rw [getElem?_insert] at hk
    split at hk
    · next heq =>
      subst heq
      exact ⟨decl, summary, hdecl, hsummary, (Option.some.inj hk).symm⟩
    · exact hr.singletons k found hk
  | _ => exact ⟨⟨hs.graph, hs.indexed, hs.sites, hs.contexts, { hr with }⟩, le_rfl⟩

/-- A step keeps the tables in order and only makes them longer. -/
theorem Step.sane (h : s.Step p w s') (hs : s.Sane p) : s'.Sane p ∧ s.extent ≤ s'.extent := by
  have hr := hs.recorded
  cases h with
  | records h => exact h.sane hs
  | @nodes g h =>
    have hle : s.extent ≤ ⟨g.nodes.size, s.extent.sites, s.extent.contexts⟩ :=
      ⟨h.toAdds.size_le, le_rfl, le_rfl⟩
    have hr' := hr.mono hle
    refine ⟨⟨h.consistent, h.indexed hs.indexed, hs.sites, hs.contexts, { hr' with
      registered := fun n d hd => hr'.registered n d (h.toAdds.registers_iff.1 hd)
      waiting := fun n d hd => hr'.waiting n d ?_ }⟩, hle⟩
    exact attaches_of_keeps h.toAdds.keeps h.toAdds.registers_iff.1 hd
  | edge _ _ ha hb =>
    exact ⟨⟨hs.graph.withEdge ha hb, hs.indexed, hs.sites, hs.contexts, { hr with }⟩, le_rfl⟩
  | address _ _ ha hb =>
    exact ⟨⟨hs.graph.withEdge ha hb, hs.indexed, hs.sites, hs.contexts, { hr with }⟩, le_rfl⟩
  | @attach n d f hf hinstance hcall =>
    have hle : s.extent ≤ ⟨(s.graph.modifyNode n (·.mapPointer f)).nodes.size, s.extent.sites,
        s.extent.contexts⟩ := ⟨FlowGraph.size_modifyNode.ge, le_rfl, le_rfl⟩
    have hr' := hr.mono hle
    refine ⟨⟨hs.graph.mapPointer _ _, hs.indexed, hs.sites, hs.contexts,
      { hr' with registered := fun m e he => ?_, waiting := fun m e he => ?_ }⟩, hle⟩
    · rcases registers_mapPointer (fun i e he => (hf i e).1 he) he with he | ⟨-, rfl⟩
      · exact hr'.registered m e he
      · exact hcall.mono hle
    · exact (attaches_mapPointer hinstance he).elim (hr'.waiting m e) And.right
  | @mark n f hf hinstance =>
    have hle : s.extent ≤ ⟨(s.graph.modifyNode n (·.mapPointer f)).nodes.size, s.extent.sites,
        s.extent.contexts⟩ := ⟨FlowGraph.size_modifyNode.ge, le_rfl, le_rfl⟩
    have hr' := hr.mono hle
    refine ⟨⟨hs.graph.mapPointer _ _, hs.indexed, hs.sites, hs.contexts, { hr' with
      registered := fun m e he => hr'.registered m e ?_
      waiting := fun m e he => hr'.waiting m e ?_ }⟩, hle⟩
    · refine (registers_mapPointer (Q := fun _ => False) (fun i e he => .inl ?_) he).resolve_right
        fun h => h.2
      rwa [hf] at he
    · refine (attaches_mapPointer (Q := fun _ => False) (fun i e he => .inl ?_) he).resolve_right
        fun h => h.2
      rwa [hinstance] at he
  | update => exact ⟨⟨hs.graph, hs.indexed, hs.sites, hs.contexts, { hr with }⟩, le_rfl⟩
  | @calls calls h =>
    have hle : s.extent ≤ ⟨s.extent.nodes, calls.sites.sites.size, s.extent.contexts⟩ :=
      ⟨le_rfl, h.sites.size_le, le_rfl⟩
    exact ⟨⟨hs.graph, hs.indexed, h.sites.valid hs.sites, hs.contexts, { hr.mono hle with
      toSurveyed := hr.toSurveyed.calls h
      waiting := fun n d hd => (hr.waiting n d hd).mono h.sites }⟩, hle⟩

theorem Turn.sane (h : s.Turn p w s') (hs : s.Sane p) : s'.Sane p ∧ s.extent ≤ s'.extent := by
  have hr := hs.recorded
  cases h with
  | step h => exact h.sane hs
  | skip _ hpop =>
    refine ⟨⟨hs.graph, hs.indexed, hs.sites, hs.contexts, { hr with agenda := fun b hb => ?_ }⟩, le_rfl⟩
    exact hr.agenda b (Queue.toList_of_pop? hpop ▸ .tail _ hb)
  | @take a agenda _ hpop hnew =>
    have ha : s.extent.HasActivation p a := hr.agenda a (Queue.toList_of_pop? hpop ▸ .head _)
    refine ⟨⟨hs.graph, hs.indexed, hs.sites, hs.contexts, { hr with
      agenda := fun b hb => ?_, instantiated := fun b hb => ?_ }⟩, le_rfl⟩
    · exact hr.agenda b (Queue.toList_of_pop? hpop ▸ .tail _ hb)
    · exact ((mem_insert ..).1 hb).elim (fun hb => hb ▸ ha) (hr.instantiated b)
  | claim hd =>
    refine ⟨⟨hs.graph, hs.indexed, hs.sites, hs.contexts, { hr with resolved := fun e he => ?_ }⟩, le_rfl⟩
    exact ((mem_insert ..).1 he).elim (fun he => he ▸ hd) (hr.resolved e)
  | postpone hd =>
    refine ⟨⟨hs.graph, hs.indexed, hs.sites, hs.contexts, { hr with unresolved := fun e he => ?_ }⟩, le_rfl⟩
    exact (Array.mem_push.1 he).elim (hr.unresolved e) fun he => he ▸ hd
  | throughField hd =>
    refine ⟨⟨hs.graph, hs.indexed, hs.sites, hs.contexts, { hr with fieldDispatched := fun e he => ?_ }⟩,
      le_rfl⟩
    exact ((mem_insert ..).1 he).elim (fun he => he ▸ hd) (hr.fieldDispatched e)

theorem Turns.sane_and_le (h : s.Turns p w s') (hs : s.Sane p) :
    s'.Sane p ∧ s.extent ≤ s'.extent := by
  induction h with
  | refl => exact ⟨hs, le_rfl⟩
  | tail _ h ih => exact ⟨(h.sane ih.1).1, ih.2.trans (h.sane ih.1).2⟩

theorem Turns.extent_le (h : s.Turns p w s') (hs : s.Sane p) : s.extent ≤ s'.extent :=
  (h.sane_and_le hs).2

theorem Steps.turns (h : s.Steps p w s') : s.Turns p w s' := by
  induction h with
  | refl => exact .refl
  | tail _ h ih => exact ih.tail (.step h)

/-- The steps of any phase are allowed where all are. -/
theorem Step.free (h : s.Step p w s') : s.Step p .free s' := by
  cases h with
  | records h => exact .records h (by rintro ⟨⟩)
  | nodes h => exact .nodes h
  | edge hk hnew ha hb hold hwakes => exact .edge hk hnew ha hb hold hwakes
  | address _ hnew ha hb => exact .address (by decide) hnew ha hb
  | attach hf hinstance hd => exact .attach hf hinstance hd (.inl rfl)
  | mark hf hinstance => exact .mark hf hinstance
  | update hn ho => exact .update hn ho
  | calls h => exact .calls h

theorem Turn.free (h : s.Turn p w s') : s.Turn p .free s' := by
  cases h with
  | step h => exact .step h.free
  | skip _ hpop hold => exact .skip rfl hpop hold
  | take _ hpop hnew => exact .take rfl hpop hnew
  | claim hd => exact .claim hd
  | postpone hd hsite => exact .postpone hd hsite (by rintro ⟨⟩)
  | throughField hd => exact .throughField hd

theorem Turns.free (h : s.Turns p w s') : s.Turns p .free s' :=
  Relation.ReflTransGen.mono (fun _ _ => Turn.free) s s' h

theorem Steps.sane (h : s.Steps p w s') (hs : s.Sane p) : s'.Sane p := (h.turns.sane_and_le hs).1

theorem Steps.extent_le (h : s.Steps p w s') (hs : s.Sane p) : s.extent ≤ s'.extent :=
  h.turns.extent_le hs

instance : Std.Refl (Steps p w) := ⟨fun _ => .refl⟩

instance : Trans (Steps p w) (Steps p w) (Steps p w) := ⟨Steps.trans⟩

/-- What a part of the analysis relies on: sane tables that know its caller. -/
def Serves (p : Problem) (k : Caller) (s : State) : Prop := s.Sane p ∧ s.extent.Knows k

variable {k : Caller}

theorem Sane.serves (hs : s.Sane p) : s.Serves p ⟨.empty, none⟩ :=
  ⟨hs, hs.contexts.has_empty, nofun⟩

theorem Sane.serves_static {site : StaticSite} (hs : s.Sane p)
    (hsite : s.calls.sites.static? i = some site) : s.Serves p ⟨.empty, site.id⟩ :=
  ⟨hs, hs.serves.2.at_site (hs.sites.static_lt_size hsite)⟩

theorem Turns.serves (h : s.Turns p w s') (hs : s.Serves p k) : s'.Serves p k :=
  ⟨(h.sane_and_le hs.1).1, hs.2.mono (h.extent_le hs.1)⟩

theorem Steps.serves (h : s.Steps p w s') (hs : s.Serves p k) : s'.Serves p k := h.turns.serves hs

instance : Preserves (Serves p k) (Steps p w) := ⟨fun _ _ h hs => h.serves hs⟩

end State

end PointsTo
