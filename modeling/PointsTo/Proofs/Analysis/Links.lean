import Mathlib.Data.Set.Lattice
import PointsTo.Proofs.Analysis.Arguments

/-! Exactly which edges connect a call with its callee. An edge is told by what it connects and
under which contexts, so that calls that are made in different ways can be compared. -/
namespace PointsTo

/-- An edge between what stands in a caller and in its callee. -/
structure Link where
  source : CallArg
  sourceContext : ContextId
  target : ValueId
  targetContext : ContextId
  kind : EdgeKind

namespace State

variable {p : Problem} {s s₁ s' : State} {l : Link} {L L' : Set Link} {x y : NodeId}

/-- The link is one from the node `x` to the node `y`. -/
def Spans (p : Problem) (s : State) (l : Link) (x y : NodeId) : Prop :=
  s.NodeAt p l.sourceContext l.source x ∧
    s.graph.nodeOf? p.scene l.targetContext l.target = .ok (some y)

theorem NodeAt.persists {c : ContextId} {a : CallArg} {n : NodeId} (h : s.NodeAt p c a n)
    (hg : s.graph.Persists s'.graph) (hs : s.graph.Consistent p.scene)
    (hs' : s'.graph.Consistent p.scene) : s'.NodeAt p c a n := by
  cases a with
  | value v => exact hg.nodeOf? hs hs' h
  | node m => exact h

theorem Spans.persists (h : s.Spans p l x y) (hg : s.graph.Persists s'.graph)
    (hs : s.graph.Consistent p.scene) (hs' : s'.graph.Consistent p.scene) : s'.Spans p l x y :=
  ⟨h.1.persists hg hs hs', hg.nodeOf? hs hs' h.2⟩

theorem Spans.unique {x' y' : NodeId} (h : s.Spans p l x y) (h' : s.Spans p l x' y') :
    x = x' ∧ y = y' :=
  ⟨h.1.unique h'.1, NodeAt.unique (a := .value l.target) h.2 h'.2⟩

/-- The node that an argument is passed from, where there is an argument that can carry pointers. -/
def SourceAt (p : Problem) (s : State) (c : ContextId) (source : Option CallArg) :
    Option NodeId → Prop
  | none => ∀ a ∈ source, ¬ a.Carries p.scene
  | some x => ∃ a ∈ source, a.Carries p.scene ∧ s.NodeAt p c a x

theorem SourceAt.persists {c : ContextId} {source : Option CallArg} {n? : Option NodeId}
    (h : s.SourceAt p c source n?) (hg : s.graph.Persists s'.graph)
    (hs : s.graph.Consistent p.scene) (hs' : s'.graph.Consistent p.scene) :
    s'.SourceAt p c source n? := by
  cases n? with
  | none => exact h
  | some x =>
    obtain ⟨a, ha, hcarries, hx⟩ := h
    exact ⟨a, ha, hcarries, hx.persists hg hs hs'⟩

/-- From `s` to `s'` the graph gets the edges of the links in `L` and no others. -/
structure Connects (p : Problem) (L : Set Link) (s s' : State) : Prop where
  consistent : s'.graph.Consistent p.scene
  persists : s.graph.Persists s'.graph
  spanned : ∀ l ∈ L, ∃ x y, s'.Spans p l x y
  edges : ∀ x y k, s'.graph.Edge x y k ↔
    s.graph.Edge x y k ∨ ∃ l ∈ L, l.kind = k ∧ s'.Spans p l x y

namespace Connects

theorem none (hs : s.graph.Consistent p.scene) (h : s'.graph = s.graph) : s.Connects p ∅ s' where
  consistent := h ▸ hs
  persists := h ▸ .refl _
  spanned := by simp
  edges x y k := by simp [h]

theorem nodes {g : FlowGraph} (h : s.graph.Grows p.scene g) :
    s.Connects p ∅ { s with graph := g } where
  consistent := h.consistent
  persists := h.toAdds.persists
  spanned := by simp
  edges x y k := by simp [h.toAdds.edge_iff]

theorem trans (h : s.Connects p L s₁) (h' : s₁.Connects p L' s') :
    s.Connects p (L ∪ L') s' where
  consistent := h'.consistent
  persists := h.persists.trans h'.persists
  spanned := by
    rintro l (hl | hl)
    · obtain ⟨x, y, hxy⟩ := h.spanned l hl
      exact ⟨x, y, hxy.persists h'.persists h.consistent h'.consistent⟩
    · exact h'.spanned l hl
  edges x y k := by
    -- a link that was spanned before is spanned by the same nodes afterwards
    have hspans : ∀ l ∈ L, s₁.Spans p l x y ↔ s'.Spans p l x y := by
      intro l hl
      constructor
      · exact fun hxy => hxy.persists h'.persists h.consistent h'.consistent
      · intro hxy
        obtain ⟨x', y', hxy'⟩ := h.spanned l hl
        obtain ⟨rfl, rfl⟩ := (hxy'.persists h'.persists h.consistent h'.consistent).unique hxy
        exact hxy'
    rw [h'.edges, h.edges, or_assoc]
    refine or_congr_right ⟨?_, ?_⟩
    · rintro (⟨l, hl, hk, hxy⟩ | ⟨l, hl, hk, hxy⟩)
      · exact ⟨l, .inl hl, hk, (hspans l hl).1 hxy⟩
      · exact ⟨l, .inr hl, hk, hxy⟩
    · rintro ⟨l, hl | hl, hk, hxy⟩
      · exact .inl ⟨l, hl, hk, (hspans l hl).2 hxy⟩
      · exact .inr ⟨l, hl, hk, hxy⟩

theorem before (h : s₁.Connects p L s') (hsame : s₁.graph = s.graph) : s.Connects p L s' where
  consistent := h.consistent
  persists := hsame ▸ h.persists
  spanned := h.spanned
  edges := hsame ▸ h.edges

theorem after (h : s.Connects p L s₁) (hsame : s'.graph = s₁.graph) : s.Connects p L s' := by
  have hnone : s₁.Connects p ∅ s' := .none h.consistent hsame
  simpa using h.trans hnone

/-- The edge of one link. -/
theorem single (hs : s.graph.Consistent p.scene) (hs' : s'.graph.Consistent p.scene)
    (hg : s.graph.Persists s'.graph) (hl : s.Spans p l x y)
    (hedges : ∀ x' y' k, s'.graph.Edge x' y' k ↔
      s.graph.Edge x' y' k ∨ (x' = x ∧ y' = y ∧ k = l.kind)) : s.Connects p {l} s' where
  consistent := hs'
  persists := hg
  spanned := by
    rintro _ rfl
    exact ⟨x, y, hl.persists hg hs hs'⟩
  edges x' y' k := by
    have hl' := hl.persists hg hs hs'
    rw [hedges]
    refine or_congr_right ⟨?_, ?_⟩
    · rintro ⟨rfl, rfl, rfl⟩
      exact ⟨l, rfl, rfl, hl'⟩
    · rintro ⟨_, rfl, rfl, hxy⟩
      obtain ⟨rfl, rfl⟩ := hl'.unique hxy
      exact ⟨rfl, rfl, rfl⟩

end Connects

/-- The two states have one graph. -/
def SameGraph (s s' : State) : Prop := s'.graph = s.graph

instance : Std.Refl SameGraph := ⟨fun _ => rfl⟩

instance : Trans SameGraph SameGraph SameGraph := ⟨fun h h' => Eq.trans h' h⟩

instance : Preserves (fun _ : State => True) SameGraph := ⟨fun _ _ _ h => h⟩

end State

/-- The links from arguments to formals. -/
def argumentLinks (p : Problem) (caller callee : ContextId) (args : List CallArg)
    (formals : List (Option ValueId)) : Set Link :=
  {l | ∃ i a v, Meets args formals i a v ∧ a.Carries p.scene ∧ l = ⟨a, caller, v, callee, .copy⟩}

/-- The links from the returned locals of a method to the target of a call. -/
def returnLinks (p : Problem) (m : MethodId) (target : Option ValueId)
    (caller callee : ContextId) : Set Link :=
  {l | ∃ t v, target = some t ∧ p.Returns m v ∧ l = ⟨.value v, callee, t, caller, .copy⟩}

/-- The local that holds the receiver of a method. -/
def Problem.Receiver (p : Problem) (m : MethodId) (v : ValueId) : Prop :=
  ∃ decl, p.scene.method m = .ok decl ∧ decl.isStatic = false ∧
    p.scene.receiverLocal? m = .ok (some v)

/-- The link from a receiver, if it can carry pointers, to the local that holds it. -/
def receiverLinks (p : Problem) (m : MethodId) (source : Option CallArg)
    (caller callee : ContextId) : Set Link :=
  {l | ∃ a v, source = some a ∧ a.Carries p.scene ∧ p.Receiver m v ∧
    l = ⟨a, caller, v, callee, .self⟩}

@[simp] theorem argumentLinks_nil {p : Problem} {caller callee : ContextId}
    {formals : List (Option ValueId)} : argumentLinks p caller callee [] formals = ∅ := by
  refine Set.eq_empty_iff_forall_notMem.2 ?_
  rintro l ⟨i, a, v, hm, -⟩
  simpa using hm.argument

@[simp] theorem returnLinks_none {p : Problem} {m : MethodId} {caller callee : ContextId} :
    returnLinks p m none caller callee = ∅ := by
  simp [returnLinks]

@[simp] theorem receiverLinks_none {p : Problem} {m : MethodId} {caller callee : ContextId} :
    receiverLinks p m none caller callee = ∅ := by
  simp [receiverLinks]

namespace Run
open State

variable {p : Problem} {s : State} {α β γ : Type} {c caller callee : ContextId} {m : MethodId}
  {stmt : Option StmtId} {site : StaticSite}

section Frame

/-- The computation leaves the graph alone. -/
abbrev Rests (m : Run α) : Prop := Follows (fun _ : State => True) SameGraph m

theorem rests_lift_bind {x : Except Fault α} {f : α → Run β} (h : ∀ a, Rests (f a)) :
    Rests (liftM x >>= f) :=
  fun s _ => ensures_lift_bind fun a _ => h a s trivial

theorem rests_schedule : Rests (schedule m c) := by
  refine .modify fun s _ => ?_
  split <;> exact Std.Refl.refl _

theorem rests_reach : Rests (reach p m) := by
  refine rests_lift_bind fun decl => ?_
  exact .discard (.modifyGet fun s _ => rfl)

theorem rests_addEntry : Rests (addEntry p m) := by
  refine .bind (.modifyGet fun s _ => rfl) fun c => .bind rests_reach fun _ => ?_
  refine .bind (.modify fun s _ => ?_) fun _ => rests_schedule
  split <;> exact Std.Refl.refl _

theorem rests_survey : Rests (survey p m) := by
  intro s _
  constructor
  · intro captures s' h
    simp only [survey] at h
    split at h <;> cases h
    rfl
  · intro e s' h
    simp only [survey] at h
    split at h <;> cases h
    rintro ⟨⟩

theorem rests_summarize : Rests (summarize p m) := by
  refine .bind .get fun s => ?_
  split
  · exact .pure _
  refine rests_lift_bind fun decl => ?_
  split
  · exact rests_lift_bind fun owner => .pure _
  refine .bind rests_survey fun captures => ?_
  split
  · refine .bind (.forM fun owner _ => .bind .get fun s => ?_) fun _ => ?_
    · split
      · exact rests_addEntry
      · exact .pure _
    · exact .bind (.modify fun s _ => rfl) fun _ => .pure _
  · exact .pure _

theorem rests_calleeContext {object : Option NodeId} :
    Rests (calleeContext p site caller object m) := by
  refine .bind (.bind .get fun s => ?_) fun shared => ?_
  · split
    · exact .pure _
    · refine rests_lift_bind fun decl => .bind .get fun s => ?_
      exact .bind (.modify fun s _ => rfl) fun _ => .pure _
  · split
    · exact .pure _
    · exact .modifyGet fun s _ => rfl

theorem rests_enter : Rests (enter p m c) := .bind rests_reach fun _ => rests_schedule

/-- What follows may rely on what is ensured, on tables that are in order and on all that was there
before. -/
theorem ensures_serving_bind {k : Caller} {x : Run α} {f : α → Run β} {Q : α → State → Prop}
    {R : β → State → Prop} (hs : s.Serves p k) (hx : Ensures x s Q) (hwalks : Walks p .dispatch k x)
    (hf : ∀ a s₁, Q a s₁ → s₁.Serves p k → s.Retains p s₁ → Ensures (f a) s₁ R) :
    Ensures (x >>= f) s R := by
  refine ensures_bind (hx.and (hwalks s hs)) ?_
  rintro a s₁ ⟨hq, hsteps⟩
  exact hf a s₁ hq (hsteps.serves hs) (hsteps.retains hs.1)

/-- The context of a callee is chosen before the graph is touched. -/
theorem ensures_callee_bind {object : Option NodeId} {f : ContextId → Run (List β)}
    {R : List β → State → Prop} (hbody : p.HasBody m) (hs : s.Serves p ⟨caller, site.id⟩)
    (hf : ∀ c s₁, s.Retains p s₁ → s₁.Serves p ⟨c, none⟩ → s₁.graph = s.graph →
      s₁.Selected p site.id caller object m c → Ensures (f c) s₁ R) :
    Ensures (do
      if !(← (liftM (p.scene.method m) : Run MethodDecl)).hasBody then return []
      let _ ← summarize p m
      let c ← calleeContext p site caller object m
      f c) s R := by
  refine ensures_lift_bind fun decl hdecl => ?_
  obtain ⟨decl', hdecl', hhas⟩ := id hbody
  cases Except.ok.inj (hdecl.symm.trans hdecl')
  rw [if_neg (by simp [hhas])]
  refine ensures_bind ((ensures_summarize (w := .dispatch) hs).and (rests_summarize s trivial)) ?_
  rintro _ s₁ ⟨⟨h₁, hmem⟩, hg₁⟩
  have hs₁ := h₁.serves hs
  refine ensures_bind ((ensures_calleeContext (w := .dispatch) (hmem hbody) hs₁ (by rintro ⟨⟩)).and
    (rests_calleeContext s₁ trivial)) ?_
  rintro c s₂ ⟨⟨h₂, hs₂, hc⟩, hg₂⟩
  exact hf c s₂ ((h₁.retains hs.1).trans (h₂.retains hs₁.1)) hs₂ (hg₂.trans hg₁) hc

end Frame

section Parts

variable {source : Option CallArg}

theorem connects_value {v : ValueId} (hs : s.graph.Consistent p.scene) :
    Ensures (value p c v stmt) s fun n s' => s.Connects p ∅ s' ∧
      s'.graph.nodeOf? p.scene c v = .ok (some n) := by
  refine (ensures_grow (FlowGraph.ensures_value hs)).mono ?_
  rintro n _ ⟨g, rfl, hg, hn, -⟩
  exact ⟨.nodes hg, hn⟩

theorem connects_argument {a : CallArg} (hs : s.graph.Consistent p.scene) :
    Ensures (argument p a c stmt) s fun n? s' => s.Connects p ∅ s' ∧
      (n? = none → ¬ a.Carries p.scene) ∧
      ∀ n, n? = some n → a.Carries p.scene ∧ s'.NodeAt p c a n := by
  refine (copies_argument hs).mono fun n? s' ⟨hcopies, hnodes⟩ => ⟨?_, hnodes⟩
  exact {
    consistent := hcopies.consistent
    persists := hcopies.persists
    spanned := by simp
    edges := by simp [hcopies.edges] }

theorem connects_flow {l : Link} {x y : NodeId} (hs : s.graph.Consistent p.scene)
    (hl : s.Spans p l x y) :
    Ensures (flow x y l.kind stmt) s fun _ s' => s.Connects p {l} s' := by
  refine ensures_bind (ensures_grow FlowGraph.ensures_addEdge) ?_
  rintro r _ ⟨g, rfl, ⟨rfl, hold, rfl⟩ | ⟨rfl, -, hx, hy, rfl⟩⟩
  · have hedge := hs.tables.hasEdge_iff.1 hold
    refine ensures_pure (.single hs hs (.refl _) hl fun x' y' k => ⟨.inl, ?_⟩)
    rintro (he | ⟨rfl, rfl, rfl⟩)
    · exact he
    · exact hedge
  · refine ensures_bind ensures_wakeSource ?_
    rintro _ _ ⟨woken, rfl, -, -⟩
    exact ensures_pure (.single hs (hs.withEdge hx hy) FlowGraph.persists_withEdge hl
      fun x' y' k => FlowGraph.edge_withEdge)

/-- The links of a loop are those of its passes. -/
theorem connects_mapM {f : γ → Run α} {F : γ → Set Link} (l : List γ)
    (hs : s.graph.Consistent p.scene)
    (hf : ∀ x ∈ l, ∀ t, t.graph.Consistent p.scene → s.graph.Persists t.graph →
      Ensures (f x) t fun _ t' => t.Connects p (F x) t') :
    Ensures (l.mapM f) s fun _ s' => s.Connects p (⋃ x ∈ l, F x) s' := by
  induction l generalizing s with
  | nil => exact ensures_pure (by simpa using .none hs rfl)
  | cons x l ih =>
    rw [List.mapM_cons]
    refine ensures_bind (hf x (.head _) s hs (.refl _)) fun _ s₁ h₁ => ?_
    refine ensures_bind (ih h₁.consistent fun y hy t ht hpersists =>
      hf y (.tail _ hy) t ht (h₁.persists.trans hpersists)) fun _ s' h' => ?_
    refine ensures_pure ?_
    have hunion : (⋃ y ∈ x :: l, F y) = F x ∪ ⋃ y ∈ l, F y := by
      simp [Set.iUnion_or, Set.iUnion_union_distrib]
    rw [hunion]
    exact h₁.trans h'

theorem connects_bindArguments {skip offset : Nat} {formals : Array (Option ValueId)}
    (hs : s.graph.Consistent p.scene) (hformals : p.scene.parameterLocals m = .ok formals) :
    Ensures (bindArguments p site caller m callee skip offset) s fun _ s' =>
      s.Connects p (argumentLinks p caller callee ((site.args.getD []).drop skip)
        (formals.toList.drop offset)) s' := by
  cases hargs : site.args with
  | none =>
    rw [bindArguments, hargs]
    exact ensures_pure (by simpa using Connects.none hs rfl)
  | some args =>
    refine (copies_bindArguments hs hargs hformals).mono fun _ s' ⟨hcopies, hnodes⟩ => ?_
    exact {
      consistent := hcopies.consistent
      persists := hcopies.persists
      spanned := by
        rintro _ ⟨i, a, v, hm, ha, rfl⟩
        exact hnodes i a v hm ha
      edges := by
        intro x y k
        rw [hcopies.edges]
        refine or_congr_right ⟨?_, ?_⟩
        · rintro ⟨rfl, i, a, v, hm, ha, hx, hy⟩
          exact ⟨_, ⟨i, a, v, hm, ha, rfl⟩, rfl, hx, hy⟩
        · rintro ⟨_, ⟨i, a, v, hm, ha, rfl⟩, rfl, hx, hy⟩
          exact ⟨rfl, i, a, v, hm, ha, hx, hy⟩ }

/-- A statement that returns a local links it with the target, and any other one nothing. -/
theorem connects_bindReturn {i : StmtId} {target : ValueId} {y : NodeId}
    (hs : s.graph.Consistent p.scene)
    (hy : s.graph.nodeOf? p.scene caller target = .ok (some y)) :
    Ensures (bindReturn p m callee y i) s fun _ s' => s.Connects p
      {l | ∃ decl v name type, p.scene.stmt i = .ok decl ∧ decl.returned? = some v ∧
        p.scene.value v = .ok (.var name type) ∧ l = ⟨.value v, callee, target, caller, .copy⟩}
      s' := by
  refine ensures_lift_bind fun decl hdecl => ?_
  split
  · next hnone => exact ensures_pure (by simpa [hdecl, hnone] using .none hs rfl)
  next v hv =>
  refine ensures_lift_bind fun a ha => ?_
  split
  · next name type =>
    refine ensures_bind (connects_value hs) ?_
    rintro x s₁ ⟨h₁, hx⟩
    have hspans : s₁.Spans p ⟨.value v, callee, target, caller, .copy⟩ x y :=
      ⟨hx, h₁.persists.nodeOf? hs h₁.consistent hy⟩
    refine ensures_bind (connects_flow h₁.consistent hspans) fun _ s₂ h₂ => ensures_pure ?_
    simpa [hdecl, hv, ha] using h₁.trans h₂
  · exact ensures_pure (by simpa [hdecl, hv, ha] using .none hs rfl)
  · exact ensures_pure (by simpa [hdecl, hv, ha] using .none hs rfl)
  · exact ensures_throw nofun

theorem connects_bindReturns (hs : s.graph.Consistent p.scene) :
    Ensures (bindReturns p site caller m callee) s fun _ s' =>
      s.Connects p (returnLinks p m site.target caller callee) s' := by
  unfold bindReturns targetNode
  cases htarget : site.target with
  | none => exact ensures_pure (by simpa using .none hs rfl)
  | some target =>
    rw [bind_assoc]
    refine ensures_bind (connects_value hs) ?_
    rintro y s₁ ⟨h₁, hy⟩
    refine ensures_lift_bind fun stmts hstmts => ?_
    refine ensures_bind (connects_mapM stmts h₁.consistent fun i _ t ht hpersists =>
      connects_bindReturn ht (hpersists.nodeOf? h₁.consistent ht hy)) fun _ s₂ h₂ => ?_
    refine ensures_pure ?_
    have hlinks : returnLinks p m (some target) caller callee = ∅ ∪ ⋃ i ∈ stmts,
        {l | ∃ decl v name type, p.scene.stmt i = .ok decl ∧ decl.returned? = some v ∧
          p.scene.value v = .ok (.var name type) ∧
          l = ⟨.value v, callee, target, caller, .copy⟩} := by
      ext l
      simp only [returnLinks, Problem.Returns, hstmts, Set.empty_union, Set.mem_iUnion,
        Set.mem_ofPred_eq]
      constructor
      · rintro ⟨t, v, ⟨⟩, ⟨_, i, decl, name, type, ⟨⟩, hi, hdecl, hv, hvar⟩, rfl⟩
        exact ⟨i, hi, decl, v, name, type, hdecl, hv, hvar, rfl⟩
      · rintro ⟨i, hi, decl, v, name, type, hdecl, hv, hvar, rfl⟩
        exact ⟨target, v, rfl, ⟨stmts, i, decl, name, type, rfl, hi, hdecl, hv, hvar⟩, rfl⟩
    rw [hlinks]
    exact h₁.trans h₂

theorem connects_receiverNode (hs : s.graph.Consistent p.scene) :
    Ensures (receiverNode p m callee) s fun n? s' => s.Connects p ∅ s' ∧
      (n? = none → ∀ v, ¬ p.Receiver m v) ∧
      ∀ n, n? = some n → ∃ v, (∀ u, p.Receiver m u ↔ u = v) ∧
        s'.graph.nodeOf? p.scene callee v = .ok (some n) := by
  refine ensures_lift_bind fun decl hdecl => ?_
  split
  · next hstatic =>
    refine ensures_pure ⟨.none hs rfl, fun _ v => ?_, nofun⟩
    rintro ⟨decl', hdecl', hno, -⟩
    cases Except.ok.inj (hdecl.symm.trans hdecl')
    simp [hstatic] at hno
  next hstatic =>
  refine ensures_lift_bind fun receiver? hreceiver => ?_
  split
  · exact ensures_throw nofun
  next v =>
  refine ensures_lift_bind fun stmt? _ => ?_
  refine ensures_bind (connects_value hs) ?_
  rintro n s₁ ⟨h₁, hn⟩
  refine ensures_pure ⟨h₁, nofun, ?_⟩
  rintro _ ⟨⟩
  refine ⟨v, fun u => ⟨?_, ?_⟩, hn⟩
  · rintro ⟨-, -, -, hu⟩
    exact Option.some.inj (Except.ok.inj (hu.symm.trans hreceiver))
  · rintro rfl
    exact ⟨decl, hdecl, by simpa using hstatic, hreceiver⟩

/-- A receiver that can carry pointers is linked with the local that holds it. -/
theorem connects_flow_receiver {v : ValueId} {x y : NodeId} (hs : s.graph.Consistent p.scene)
    (hx : s.SourceAt p caller source (some x)) (hv : ∀ u, p.Receiver m u ↔ u = v)
    (hy : s.graph.nodeOf? p.scene callee v = .ok (some y)) :
    Ensures (flow x y .self stmt) s fun _ s' =>
      s.Connects p (receiverLinks p m source caller callee) s' := by
  obtain ⟨a, rfl, ha, hx⟩ := hx
  have hlinks : receiverLinks p m (some a) caller callee = {⟨a, caller, v, callee, .self⟩} := by
    ext l
    simp [receiverLinks, ha, hv]
  rw [hlinks]
  exact connects_flow (l := ⟨a, caller, v, callee, .self⟩) hs ⟨hx, hy⟩

theorem receiverLinks_of_static (h : ∀ v, ¬ p.Receiver m v) :
    receiverLinks p m source caller callee = ∅ := by
  simp [receiverLinks, h]

theorem receiverLinks_of_sourceAt (h : s.SourceAt p caller source none) :
    receiverLinks p m source caller callee = ∅ := by
  refine Set.eq_empty_iff_forall_notMem.2 ?_
  rintro l ⟨a, v, ha, hcarries, -⟩
  exact h a ha hcarries

theorem connects_argumentAt {i : Nat} (hs : s.graph.Consistent p.scene) :
    Ensures (argumentAt p site c i) s fun n? s' => s.Connects p ∅ s' ∧
      s'.SourceAt p c (site.args.getD [])[i]? n? := by
  unfold argumentAt
  split
  · next a ha =>
    rw [ha]
    refine (connects_argument hs).mono ?_
    rintro n? s' ⟨h', hnone, hsome⟩
    refine ⟨h', ?_⟩
    cases n? with
    | none =>
      rintro _ ⟨⟩
      exact hnone rfl
    | some n => exact ⟨a, rfl, hsome n rfl⟩
  · next ha => exact ensures_pure ⟨.none hs rfl, by simp [SourceAt, ha]⟩

theorem connects_bindReceiverTo {x : NodeId} (hs : s.graph.Consistent p.scene)
    (hx : s.SourceAt p caller source (some x)) :
    Ensures (bindReceiverTo p x m callee stmt) s fun _ s' =>
      s.Connects p (receiverLinks p m source caller callee) s' := by
  refine ensures_bind (connects_receiverNode hs) ?_
  rintro target? s₁ ⟨h₁, hnone, hsome⟩
  cases target? with
  | none => exact ensures_pure (receiverLinks_of_static (hnone rfl) ▸ h₁)
  | some y =>
    obtain ⟨v, hv, hy⟩ := hsome y rfl
    have hx₁ := hx.persists h₁.persists hs h₁.consistent
    refine ensures_bind (connects_flow_receiver h₁.consistent hx₁ hv hy) fun _ s₂ h₂ => ?_
    exact ensures_pure (by simpa using h₁.trans h₂)

/-- A call of a function value gives the callee the receiver that the function is bound to. -/
theorem connects_bindReceiver {o : NodeId} {n : Node} {f : FunctionInfo}
    (hs : s.graph.Consistent p.scene) (hn : s.graph.At o n) (hf : n.function? = some f)
    (hsource : s.SourceAt p c source f.receiver) :
    Ensures (bindReceiver p site caller (some o) m callee) s fun _ s' =>
      s.Connects p (receiverLinks p m source c callee) s' := by
  refine ensures_bind (connects_receiverNode hs) ?_
  rintro target? s₁ ⟨h₁, hnone, hsome⟩
  cases target? with
  | none => exact ensures_pure (receiverLinks_of_static (hnone rfl) ▸ h₁)
  | some y =>
    obtain ⟨v, hv, hy⟩ := hsome y rfl
    refine ensures_node_bind fun n' hn' => ?_
    obtain ⟨n₁, hn₁, hkeeps⟩ := h₁.persists.nodes o n hn
    cases Option.some.inj (hn₁.symm.trans hn')
    rw [hkeeps.function?, hf]
    dsimp only
    have hsource₁ := hsource.persists h₁.persists hs h₁.consistent
    cases hreceiver : f.receiver with
    | none =>
      rw [hreceiver] at hsource₁
      exact ensures_pure (receiverLinks_of_sourceAt hsource₁ ▸ h₁)
    | some x =>
      rw [hreceiver] at hsource₁
      refine ensures_bind (connects_flow_receiver h₁.consistent hsource₁ hv hy)
        fun _ s₂ h₂ => ensures_pure ?_
      simpa using h₁.trans h₂

end Parts

end Run

/-- The links of a callee that is given the first argument as its receiver and the others for its
formals. -/
def receivedLinks (p : Problem) (m : MethodId) (caller callee : ContextId) (args : List CallArg)
    (formals : List (Option ValueId)) : Set Link :=
  argumentLinks p caller callee (args.drop 1) formals ∪ receiverLinks p m args[0]? caller callee

/-- The links of a callee that is given the arguments for its formals and whose result is taken. -/
def callLinks (p : Problem) (m : MethodId) (target : Option ValueId) (caller callee : ContextId)
    (args : List CallArg) (formals : List (Option ValueId)) : Set Link :=
  argumentLinks p caller callee args formals ∪ returnLinks p m target caller callee

@[simp] theorem receivedLinks_nil {p : Problem} {m : MethodId} {caller callee : ContextId}
    {formals : List (Option ValueId)} : receivedLinks p m caller callee [] formals = ∅ := by
  simp [receivedLinks]

/-- The function remembers the arguments of the bind call that made it and the context of that
call. There are none where it was not made by a bind call. -/
structure State.BoundTo (p : Problem) (s : State) (f : FunctionInfo) (args : List CallArg)
    (c : ContextId) : Prop where
  binding : match f.binding with
    | none => args = []
    | some b => b.offset = args.length - 1 ∧ b.context = c ∧
        ∃ site, s.calls.sites.static? b.site = some site ∧ site.args.getD [] = args
  receiver : s.SourceAt p c args[0]? f.receiver

theorem State.BoundTo.retains {p : Problem} {s s' : State} {f : FunctionInfo}
    {args : List CallArg} {c : ContextId} (h : s.BoundTo p f args c) (hr : s.Retains p s')
    (hs : s.graph.Consistent p.scene) (hs' : s'.graph.Consistent p.scene) :
    s'.BoundTo p f args c where
  binding := by
    have hbinding := h.binding
    cases hb : f.binding with
    | none =>
      rw [hb] at hbinding
      exact hbinding
    | some b =>
      rw [hb] at hbinding
      obtain ⟨hoffset, hcontext, site, hsite, hargs⟩ := hbinding
      exact ⟨hoffset, hcontext, site, hr.calls.sites.static? hsite, hargs⟩
  receiver := h.receiver.persists hr.graph hs hs'

namespace Run
open State

variable {p : Problem} {s : State} {c c₀ callee : ContextId} {m : MethodId} {site : StaticSite}
  {g : NodeId} {n : Node} {f : FunctionInfo} {bound : List CallArg}
  {formals : Array (Option ValueId)}

theorem connects_bindApplied (hs : s.graph.Consistent p.scene) (hn : s.graph.At g n)
    (hf : n.function? = some f) (hbound : s.BoundTo p f bound c₀)
    (hformals : p.scene.parameterLocals m = .ok formals) :
    Ensures (bindApplied p (some g) m callee) s fun r s' => r.1 = bound.length - 1 ∧
      s.Connects p (argumentLinks p c₀ callee (bound.drop 1) formals.toList) s' := by
  refine ensures_node_bind fun n' hn' => ?_
  cases Option.some.inj (hn.symm.trans hn')
  rw [hf]
  have hbinding := hbound.binding
  dsimp only [Option.bind_some]
  cases hb : f.binding with
  | none =>
    rw [hb] at hbinding
    subst hbinding
    exact ensures_pure ⟨rfl, by simpa using .none hs rfl⟩
  | some b =>
    rw [hb] at hbinding
    obtain ⟨hoffset, rfl, site, hsite, rfl⟩ := hbinding
    refine ensures_get_bind ?_
    rw [hsite]
    refine ensures_bind (connects_bindArguments hs hformals) fun _ s' h' => ?_
    exact ensures_pure ⟨hoffset, by simpa using h'⟩

/-- Once its links are made the callee is entered, which makes no more of them. -/
theorem connects_enter {s₁ : State} {L : Set Link} {object : Option NodeId} {α : Type} {r : α}
    (hs : s₁.Serves p ⟨callee, none⟩) (hselected : s₁.Selected p site.id c object m callee)
    (h : s.Connects p L s₁) :
    Ensures (do enter p m callee; return r) s₁ fun _ s' =>
      s'.Selected p site.id c object m callee ∧ s.Connects p L s' :=
  ensures_serving_bind hs (rests_enter s₁ trivial) walks_enter fun _ _ hg' _ hr' =>
    ensures_pure ⟨hselected.retains hr', h.after hg'⟩

/-- A function value gets the arguments and the receiver that it is bound to first, and the
arguments of the call for the formals that are left. -/
theorem connects_wire (hs : s.Serves p ⟨c, site.id⟩) (hbody : p.HasBody site.callee)
    (hn : s.graph.At g n) (hf : n.function? = some f) (hbound : s.BoundTo p f bound c₀)
    (hformals : p.scene.parameterLocals site.callee = .ok formals) :
    Ensures (wire p site c (some g)) s fun _ s' => ∃ c',
      s'.Selected p site.id c (some g) site.callee c' ∧
      s.Connects p (receivedLinks p site.callee c₀ c' bound formals.toList ∪
        callLinks p site.callee site.target c c' (site.args.getD [])
          (formals.toList.drop (bound.length - 1))) s' := by
  refine ensures_callee_bind hbody hs fun c' s₁ hr₁ hs₁ hg₁ hselected => ?_
  have hn₁ : s₁.graph.At g n := hg₁ ▸ hn
  have hbound₁ := hbound.retains hr₁ hs.1.graph hs₁.1.graph
  refine ensures_serving_bind hs₁ (connects_bindApplied hs₁.1.graph hn₁ hf hbound₁ hformals)
    (fun _ hs => (ensures_bindApplied hs.1).mono fun _ _ h => h.1) ?_
  rintro ⟨_, applied⟩ s₂ ⟨rfl, h₂⟩ hs₂ hr₂
  refine ensures_serving_bind hs₂ (connects_bindArguments h₂.consistent hformals)
    walks_bindArguments fun args s₃ h₃ hs₃ hr₃ => ?_
  refine ensures_serving_bind hs₃ (connects_bindReturns h₃.consistent)
    walks_bindReturns fun results s₄ h₄ hs₄ hr₄ => ?_
  -- the function is bound to the same as before when its receiver is asked for
  have hr := (hr₂.trans hr₃).trans hr₄
  obtain ⟨n₄, hn₄, hkeeps⟩ := hr.graph.nodes g n hn₁
  have hbound₄ := hbound₁.retains hr hs₁.1.graph hs₄.1.graph
  refine ensures_serving_bind hs₄ (connects_bindReceiver h₄.consistent hn₄
    (hkeeps.function?.trans hf) hbound₄.receiver)
    (fun _ hs => (ensures_bindReceiver hs.1).mono fun _ _ h => h.1) fun receiver s₅ h₅ hs₅ hr₅ => ?_
  have hall := ((h₂.trans (h₃.trans h₄)).trans h₅).before hg₁
  rw [Set.union_right_comm] at hall
  exact (connects_enter hs₅ (hselected.retains (hr.trans hr₅)) hall).mono fun _ _ h => ⟨c', h⟩

/-- A function that is called through `call` gets the arguments of that call only, whether it is
bound or not. -/
theorem connects_invoke (hs : s.Serves p ⟨c, site.id⟩) (hbody : p.HasBody site.callee)
    (hformals : p.scene.parameterLocals site.callee = .ok formals) :
    Ensures (Model.Reflection.invoke p site c g false) s fun _ s' => ∃ c',
      s'.Selected p site.id c (some g) site.callee c' ∧
      s.Connects p (receivedLinks p site.callee c c' (site.args.getD []) formals.toList ∪
        returnLinks p site.callee site.target c c') s' := by
  refine ensures_callee_bind hbody hs fun c' s₁ hr₁ hs₁ hg₁ hselected => ?_
  rw [if_neg (by decide)]
  refine ensures_serving_bind hs₁ (connects_bindArguments hs₁.1.graph hformals)
    walks_bindArguments fun args s₂ h₂ hs₂ hr₂ => ?_
  refine ensures_serving_bind hs₂ (connects_bindReturns h₂.consistent)
    walks_bindReturns fun results s₃ h₃ hs₃ hr₃ => ?_
  refine ensures_serving_bind hs₃ (connects_argumentAt h₃.consistent) walks_argumentAt ?_
  rintro source? s₄ ⟨h₄, hsource⟩ hs₄ hr₄
  have hr := (hr₂.trans hr₃).trans hr₄
  -- what is left once the receiver is bound is the same whether there is one or not
  have hfinish : ∀ (receiver : List NodeId) s₅,
      s₄.Connects p (receiverLinks p site.callee (site.args.getD [])[0]? c c') s₅ →
      s₅.Serves p ⟨c', none⟩ → s₄.Retains p s₅ →
      Ensures (do
        enter p site.callee c'
        return args ++ results ++ receiver) s₅ fun _ s' => ∃ c',
          s'.Selected p site.id c (some g) site.callee c' ∧
          s.Connects p (receivedLinks p site.callee c c' (site.args.getD []) formals.toList ∪
            returnLinks p site.callee site.target c c') s' := by
    intro receiver s₅ h₅ hs₅ hr₅
    have hall := (((h₂.trans h₃).trans h₄).trans h₅).before hg₁
    rw [Set.union_empty, Set.union_right_comm] at hall
    exact (connects_enter hs₅ (hselected.retains (hr.trans hr₅)) hall).mono fun _ _ h => ⟨c', h⟩
  cases source? with
  | none =>
    refine hfinish [] s₄ ?_ hs₄ (.refl s₄)
    rw [receiverLinks_of_sourceAt hsource]
    exact .none h₄.consistent rfl
  | some x =>
    exact ensures_serving_bind hs₄ (connects_bindReceiverTo h₄.consistent hsource)
      walks_bindReceiverTo hfinish

end Run

end PointsTo
