import PointsTo.Proofs.Analysis.Sound

/-! What connects a call with its callee. Nothing that an analysis does later takes it away. -/
namespace PointsTo

/-- Whether an argument can carry pointers. -/
def CallArg.Carries (scene : Scene) : CallArg → Prop
  | .value v => ∃ a, scene.value v = .ok a ∧ a.isPointer = true
  | .node _ => True

/-- Whether a statement of a method returns the given local. -/
def Problem.Returns (p : Problem) (m : MethodId) (v : ValueId) : Prop :=
  ∃ stmts i stmt name type, p.scene.returnStmts m = .ok stmts ∧ i ∈ stmts ∧
    p.scene.stmt i = .ok stmt ∧ stmt.returned? = some v ∧ p.scene.value v = .ok (.var name type)

/-- How many formals of a function have their argument already. -/
def Node.applied (a : Node) : Nat := (a.function?.bind (·.binding)).elim 0 (·.offset)

/-- The node of a value is found again, whatever is added to a graph. -/
theorem FlowGraph.Persists.nodeOf? {g g' : FlowGraph} {scene : Scene} {c : ContextId} {v : ValueId}
    {n : NodeId} (h : g.Persists g') (hg : g.Consistent scene) (hg' : g'.Consistent scene)
    (hn : g.nodeOf? scene c v = .ok (some n)) : g'.nodeOf? scene c v = .ok (some n) := by
  have hinterned : ∀ (c : ContextId) (l : Location) n, g.interned[(c, l)]? = some n →
      g'.interned[(c, l)]? = some n := by
    intro c l n hn
    obtain ⟨a, ha, hc, hl⟩ := (hg.interned ..).1 hn
    obtain ⟨a', ha', hk⟩ := h.nodes n a ha
    exact (hg'.interned ..).2 ⟨a', ha', hk.context.trans hc, hk.location.trans hl⟩
  rw [nodeOf?_eq_some] at hn ⊢
  obtain ⟨a, ha, hn⟩ := hn
  refine ⟨a, ha, ?_⟩
  split
  · next hglobal =>
    rw [if_pos hglobal] at hn
    exact hinterned _ _ _ hn
  next hglobal =>
  rw [if_neg hglobal] at hn
  obtain ⟨k, hk, hn⟩ := hn
  refine ⟨k, ?_, hinterned _ _ _ hn⟩
  rw [known_eq_ok] at hk ⊢
  obtain ⟨place?, hplace, rfl⟩ := hk
  refine ⟨place?, hplace, ?_⟩
  cases place? with
  | none => rfl
  | some place =>
    -- the value behind the node represents its place in both graphs
    obtain ⟨a, ha, -, hl⟩ := (hg'.interned ..).1 (hinterned _ _ _ hn)
    have hsame : scene.place? ((g.representatives.lookup place).getD v) = .ok (some place) := by
      cases hr : g.representatives.lookup place with
      | none => exact hplace
      | some w => exact hg.representatives place w hr
    simp [(hg'.places _ a _ place ha hl hsame).1]

namespace State

variable {p : Problem} {w : Phase} {s s' s'' : State}

/-- A method under a context is instantiated or will be. -/
def Awaits (s : State) (a : Activation) : Prop := a ∈ s.agenda.toList ∨ a ∈ s.instantiated

/-- A node points to an object or will do so after the next solution. -/
def Gives (s : State) (n o : NodeId) : Prop :=
  s.points.Has n o ∨ ∃ set, s.updates[n]? = some set ∧ set.contains o = true

/-- What connects calls with their callees is still there in `s'`. -/
structure Retains (p : Problem) (s s' : State) : Prop where
  graph : s.graph.Persists s'.graph
  nodeOf : ∀ c v n, s.graph.nodeOf? p.scene c v = .ok (some n) →
    s'.graph.nodeOf? p.scene c v = .ok (some n)
  calls : s.calls.Grows p.scene s'.calls
  contexts : s.contexts.Extends s'.contexts
  summaries : ∀ (m : MethodId) (summary : Summary), s.summaries[m]? = some summary →
    s'.summaries[m]? = some summary
  captures : ∀ m ∈ s.summaries, s'.captures[m]? = s.captures[m]?
  links : ∀ a ∈ s.links, a ∈ s'.links
  entries : ∀ a ∈ s.entries, a ∈ s'.entries
  awaits : ∀ a, s.Awaits a → s'.Awaits a
  gives : ∀ n o, s.Gives n o → s'.Gives n o

theorem Retains.refl (s : State) : s.Retains p s where
  graph := .refl _
  nodeOf _ _ _ h := h
  calls := Std.Refl.refl _
  contexts := .refl _
  summaries _ _ h := h
  captures _ _ := rfl
  links _ h := h
  entries _ h := h
  awaits _ h := h
  gives _ _ h := h

theorem Retains.mem_summaries (h : s.Retains p s') {m : MethodId} (hm : m ∈ s.summaries) :
    m ∈ s'.summaries := by
  rw [Std.TreeMap.mem_iff_isSome_getElem?, Option.isSome_iff_exists] at hm ⊢
  obtain ⟨summary, hsummary⟩ := hm
  exact ⟨summary, h.summaries m summary hsummary⟩

theorem Stated.retains {i : SiteId} (h : s.Stated i) (hr : s.Retains p s') : s'.Stated i := by
  obtain ⟨m, summary, hsummary, hi⟩ := h
  exact ⟨m, summary, hr.summaries m summary hsummary, hi⟩

theorem Retains.trans (h : s.Retains p s') (h' : s'.Retains p s'') : s.Retains p s'' where
  graph := h.graph.trans h'.graph
  nodeOf c v n hn := h'.nodeOf c v n (h.nodeOf c v n hn)
  calls := Trans.trans h.calls h'.calls
  contexts := h.contexts.trans h'.contexts
  summaries m summary hm := h'.summaries m summary (h.summaries m summary hm)
  captures m hm := (h'.captures m (h.mem_summaries hm)).trans (h.captures m hm)
  links a ha := h'.links a (h.links a ha)
  entries a ha := h'.entries a (h.entries a ha)
  awaits a ha := h'.awaits a (h.awaits a ha)
  gives n o ho := h'.gives n o (h.gives n o ho)

theorem Records.retains (h : s.Records p s') (hs : s.Sane p) : s.Retains p s' := by
  have hr : s.Retains p s := .refl s
  cases h with
  | context h => exact { hr with contexts := (h.chosen hs.contexts).keeps }
  | summary _ hnew =>
    refine { hr with
      summaries := fun _ _ hk => summaries_insert hnew hk, captures := fun k hk => ?_ }
    dsimp only
    split
    · rfl
    · rw [getElem?_insert, if_neg]
      rintro rfl
      exact hnew hk
  | schedule =>
    refine { hr with awaits := fun b hb => hb.imp_left fun hb => ?_ }
    rw [Queue.toList_push]
    exact List.mem_append_left _ hb
  | link => exact { hr with links := fun b hb => Array.mem_push_of_mem _ hb }
  | entry => exact { hr with entries := fun b hb => Array.mem_push_of_mem _ hb }
  | log | singleton | synthetic => exact { hr with }

/-- An object that a node is to be given stays so when it is to be given another one. -/
theorem gives_update {updates : Std.TreeMap NodeId ObjectSet} {empty : ObjectSet}
    {m n o x : NodeId} (h : ∃ set, updates[n]? = some set ∧ set.contains o = true) :
    ∃ set, (updates.insert m (((updates[m]?).getD empty).insert x).2)[n]? = some set ∧
      set.contains o = true := by
  obtain ⟨set, hset, ho⟩ := h
  rw [getElem?_insert]
  split
  · next heq =>
    subst heq
    exact ⟨_, rfl, by simp [hset, ho]⟩
  · exact ⟨set, hset, ho⟩

theorem Step.retains (h : s.Step p w s') (hs : s.Sane p) : s.Retains p s' := by
  have hr : s.Retains p s := .refl s
  have hgraph := h.persists
  have hnodes : ∀ c v n, s.graph.nodeOf? p.scene c v = .ok (some n) →
      s'.graph.nodeOf? p.scene c v = .ok (some n) := fun _ _ _ hn =>
    hgraph.nodeOf? hs.graph (h.sane hs).1.graph hn
  cases h with
  | records h => exact h.retains hs
  | nodes | edge | address | attach | mark => exact { hr with graph := hgraph, nodeOf := hnodes }
  | update => exact { hr with gives := fun n o ho => ho.imp_right fun ho => gives_update ho }
  | calls h => exact { hr with calls := h }

theorem Turn.retains (h : s.Turn p w s') (hs : s.Sane p) : s.Retains p s' := by
  have hr : s.Retains p s := .refl s
  cases h with
  | step h => exact h.retains hs
  | skip _ hpop hold =>
    refine { hr with awaits := fun b hb => hb.elim (fun hb => ?_) .inr }
    rw [Queue.toList_of_pop? hpop] at hb
    rcases List.mem_cons.1 hb with rfl | hb
    · exact .inr hold
    · exact .inl hb
  | take _ hpop =>
    refine { hr with awaits := fun b hb => hb.elim (fun hb => ?_) fun hb => .inr ?_ }
    · rw [Queue.toList_of_pop? hpop] at hb
      rcases List.mem_cons.1 hb with rfl | hb
      · exact .inr ((mem_insert ..).2 (.inl rfl))
      · exact .inl hb
    · exact (mem_insert ..).2 (.inr hb)
  | claim | postpone | throughField => exact { hr with }

theorem Turns.retains (h : s.Turns p w s') (hs : s.Sane p) : s.Retains p s' := by
  induction h with
  | refl => exact .refl s
  | tail h h' ih => exact ih.trans (h'.retains (Turns.sane_and_le h hs).1)

theorem Steps.retains (h : s.Steps p w s') (hs : s.Sane p) : s.Retains p s' := h.turns.retains hs

/-- A value has a node under a context. -/
def HasNode (p : Problem) (s : State) (c : ContextId) (v : ValueId) : Prop :=
  ∃ n, s.graph.nodeOf? p.scene c v = .ok (some n)

/-- The node that an argument of a call is passed from. -/
def NodeAt (p : Problem) (s : State) (c : ContextId) : CallArg → NodeId → Prop
  | .value v, n => s.graph.nodeOf? p.scene c v = .ok (some n)
  | .node m, n => m = n

/-- What an argument points to flows into a value under another context. -/
def Flows (p : Problem) (s : State) (c : ContextId) (a : CallArg) (c' : ContextId)
    (v : ValueId) : Prop :=
  ∃ x y, s.NodeAt p c a x ∧ s.graph.nodeOf? p.scene c' v = .ok (some y) ∧ s.graph.CopyEdge x y

/-- Arguments flow into formals, both in order, up to the first formal without a local. -/
def BindsEach (p : Problem) (s : State) (c c' : ContextId) (args : List CallArg)
    (formals : List (Option ValueId)) : Prop :=
  ∀ (i : Nat) (a : CallArg) (v : ValueId), args[i]? = some a → formals[i]? = some (some v) →
    (∀ j < i, ∃ u, formals[j]? = some (some u)) → a.Carries p.scene → s.Flows p c a c' v

/-- How many formals of the object that a call is made on have their argument already. -/
def Applied (s : State) : Option NodeId → Nat → Prop
  | none, n => n = 0
  | some o, n => ∃ a, s.graph.At o a ∧ n = a.applied

/-- The object that a call is made on is a function that is bound to the receiver `x`. -/
def Bears (s : State) (object : Option NodeId) (x : NodeId) : Prop :=
  ∃ o a f, object = some o ∧ s.graph.At o a ∧ a.function? = some f ∧ f.receiver = some x

/-- The context was chosen for a callee at some time. -/
def Selected (p : Problem) (s : State) (site : SiteId) (caller : ContextId)
    (object : Option NodeId) (callee : MethodId) (c : ContextId) : Prop :=
  ∃ shared, s.Shares p callee shared ∧
    if shared then c = .empty
    else ∃ t : ContextTable, t.Has caller ∧
      (t.select p.settings.policy p.settings.depth caller site object callee).table.Extends
        s.contexts ∧
      c = (t.select p.settings.policy p.settings.depth caller site object callee).context

/-- The receiver of a method under a context points to an object or will do so. -/
def Receives (p : Problem) (s : State) (callee : MethodId) (c : ContextId) (o : NodeId) : Prop :=
  ∃ v y, p.scene.receiverLocal? callee = .ok (some v) ∧
    s.graph.nodeOf? p.scene c v = .ok (some y) ∧ s.Gives y o

/-- From `s` to `s'` the node `y` has come to get what a receiver does: the base of a call that is not
made on an object, else the object or what it is bound to. -/
structure Equips (p : Problem) (s : State) (site : StaticSite) (caller : ContextId)
    (object : Option NodeId) (y : NodeId) (s' : State) : Prop where
  base : object = none → ∀ base, site.receiver = some base → ∃ x,
    s'.graph.nodeOf? p.scene caller base = .ok (some x) ∧ s'.graph.Edge x y .self
  given : ∀ o ∈ object, s'.graph.IsFunction o ∨ s'.Gives y o
  bound : ∀ x, s.Bears object x → s'.graph.CopyEdge x y

/-- A call under the context `caller` is connected with its callee under the context `c`. -/
structure Wired (p : Problem) (s : State) (site : StaticSite) (caller : ContextId)
    (object : Option NodeId) (c : ContextId) (offset : Nat) : Prop where
  selected : s.Selected p site.id caller object site.callee c
  applied : s.Applied object offset
  arguments : ∀ args formals, site.args = some args →
    p.scene.parameterLocals site.callee = .ok formals →
    s.BindsEach p caller c args (formals.toList.drop offset)
  target : ∀ target, site.target = some target → s.HasNode p caller target
  returns : ∀ target v, site.target = some target → p.Returns site.callee v →
    s.Flows p c (.value v) caller target
  self : ∀ decl, p.scene.method site.callee = .ok decl → decl.isStatic = false →
    ∃ v, p.scene.receiverLocal? site.callee = .ok (some v) ∧ s.HasNode p c v
  /-- A call on an object binds the receiver to the object instead. -/
  receiver : object = none → ∀ base decl, site.receiver = some base →
    p.scene.method site.callee = .ok decl → decl.isStatic = false →
    ∃ v, p.scene.receiverLocal? site.callee = .ok (some v) ∧ s.Flows p caller (.value base) c v
  given : ∀ o ∈ object, ¬ s.graph.IsFunction o → ∀ decl, p.scene.method site.callee = .ok decl →
    decl.isStatic = false → s.Receives p site.callee c o
  bound : ∀ x decl, s.Bears object x → p.scene.method site.callee = .ok decl →
    decl.isStatic = false →
    ∃ v, p.scene.receiverLocal? site.callee = .ok (some v) ∧ s.Flows p caller (.node x) c v
  awaited : s.Awaits (c, site.callee)

variable {c c' caller : ContextId} {a : CallArg} {v : ValueId} {n : NodeId}

theorem HasNode.retains (h : s.HasNode p c v) (hr : s.Retains p s') : s'.HasNode p c v :=
  h.imp fun n hn => hr.nodeOf c v n hn

theorem NodeAt.retains (h : s.NodeAt p c a n) (hr : s.Retains p s') : s'.NodeAt p c a n := by
  cases a with
  | value v => exact hr.nodeOf c v n h
  | node m => exact h

theorem Flows.retains (h : s.Flows p c a c' v) (hr : s.Retains p s') : s'.Flows p c a c' v := by
  obtain ⟨x, y, hx, hy, k, hk, he⟩ := h
  exact ⟨x, y, hx.retains hr, hr.nodeOf c' v y hy, k, hk, hr.graph.edge he⟩

theorem BindsEach.retains {args : List CallArg} {formals : List (Option ValueId)}
    (h : s.BindsEach p c c' args formals) (hr : s.Retains p s') :
    s'.BindsEach p c c' args formals := fun i a v ha hv hfirst hc =>
  (h i a v ha hv hfirst hc).retains hr

theorem Shares.retains {m : MethodId} {shared : Bool} (h : s.Shares p m shared)
    (hr : s.Retains p s') : s'.Shares p m shared := by
  obtain ⟨decl, summary, hdecl, hsummary, hshared⟩ := h
  exact ⟨decl, summary, hdecl, hr.summaries m summary hsummary, hshared⟩

theorem Applied.retains {object : Option NodeId} {offset : Nat} (h : s.Applied object offset)
    (hr : s.Retains p s') : s'.Applied object offset := by
  cases object with
  | none => exact h
  | some o =>
    obtain ⟨a, ha, rfl⟩ := h
    obtain ⟨a', ha', hk⟩ := hr.graph.nodes o a ha
    exact ⟨a', ha', by rw [Node.applied, Node.applied, hk.function?]⟩

theorem Bears.retains {object : Option NodeId} {x : NodeId} (h : s.Bears object x)
    (hr : s.Retains p s') : s'.Bears object x := by
  obtain ⟨o, a, f, rfl, ha, hf, hx⟩ := h
  obtain ⟨a', ha', hk⟩ := hr.graph.nodes o a ha
  exact ⟨o, a', f, rfl, ha', hk.function?.trans hf, hx⟩

/-- What a function is bound to does not change. -/
theorem Bears.of_retains {object : Option NodeId} {x : NodeId} (h : s'.Bears object x)
    (hr : s.Retains p s') (ho : ∀ o ∈ object, o.index < s.graph.nodes.size) : s.Bears object x := by
  obtain ⟨o, a', f, rfl, ha', hf, hx⟩ := h
  obtain ⟨a, ha, hk⟩ := hr.graph.at_of_lt (ho o rfl) ha'
  exact ⟨o, a, f, rfl, ha, hk.function?.symm.trans hf, hx⟩

theorem Applied.lt_size {object : Option NodeId} {offset : Nat} (h : s.Applied object offset) :
    ∀ o ∈ object, o.index < s.graph.nodes.size := by
  rintro o rfl
  obtain ⟨a, ha, -⟩ := h
  exact ha.lt_size

section Selected

variable {site : SiteId} {object : Option NodeId} {callee : MethodId}

theorem Selected.retains (h : s.Selected p site caller object callee c) (hr : s.Retains p s') :
    s'.Selected p site caller object callee c := by
  obtain ⟨shared, hshared, hc⟩ := h
  refine ⟨shared, hshared.retains hr, ?_⟩
  split
  · next hyes => rwa [if_pos hyes] at hc
  · next hno =>
    rw [if_neg hno] at hc
    obtain ⟨t, hcaller, hext, hc⟩ := hc
    exact ⟨t, hcaller, hext.trans hr.contexts, hc⟩

/-- A context that was chosen once would be chosen again. -/
theorem Selected.calleeContext (h : s.Selected p site caller object callee c) :
    s.CalleeContext p site caller object callee c := by
  obtain ⟨shared, hshared, hc⟩ := h
  refine ⟨shared, hshared, ?_⟩
  split
  · next hyes => rwa [if_pos hyes] at hc
  · next hno =>
    rw [if_neg hno] at hc
    obtain ⟨t, hcaller, hext, rfl⟩ := hc
    exact (ContextTable.context_select_of_extends hcaller hext).symm

end Selected

theorem Receives.retains {callee : MethodId} {o : NodeId} (h : s.Receives p callee c o)
    (hr : s.Retains p s') : s'.Receives p callee c o := by
  obtain ⟨v, y, hv, hy, ho⟩ := h
  exact ⟨v, y, hv, hr.nodeOf c v y hy, hr.gives y o ho⟩

theorem Wired.retains {site : StaticSite} {object : Option NodeId} {offset : Nat}
    (h : s.Wired p site caller object c offset) (hr : s.Retains p s') :
    s'.Wired p site caller object c offset where
  selected := h.selected.retains hr
  applied := h.applied.retains hr
  arguments args formals ha hf := (h.arguments args formals ha hf).retains hr
  target target ht := (h.target target ht).retains hr
  returns target v ht hv := (h.returns target v ht hv).retains hr
  self decl hd hstatic := by
    obtain ⟨v, hv, hnode⟩ := h.self decl hd hstatic
    exact ⟨v, hv, hnode.retains hr⟩
  receiver ho base decl hb hd hstatic := by
    obtain ⟨v, hv, hflows⟩ := h.receiver ho base decl hb hd hstatic
    exact ⟨v, hv, hflows.retains hr⟩
  given o ho hf decl hd hstatic :=
    (h.given o ho (fun h => hf (hr.graph.isFunction h)) decl hd hstatic).retains hr
  bound x decl hx hd hstatic := by
    obtain ⟨v, hv, hflows⟩ := h.bound x decl (hx.of_retains hr h.applied.lt_size) hd hstatic
    exact ⟨v, hv, hflows.retains hr⟩
  awaited := hr.awaits _ h.awaited

end State

end PointsTo
