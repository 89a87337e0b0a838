import PointsTo.Proofs.Analysis.Grounded

/-! An analysis that is run again on its own result takes one round and changes nothing. -/
namespace PointsTo

section Idle

variable {ε σ α β : Type} {s : σ} {m : EStateM ε σ α} {f : α → EStateM ε σ β} {l : List α}

/-- A computation ends in the state that it starts in. -/
def Idle (m : EStateM ε σ α) (s : σ) : Prop := ∃ a, m s = .ok a s

theorem idle_pure (a : α) : Idle (pure a : EStateM ε σ α) s := ⟨a, rfl⟩

theorem idle_bind_of_ok {a : α} (hm : m s = .ok a s) (hf : Idle (f a) s) : Idle (m >>= f) s := by
  obtain ⟨b, hb⟩ := hf
  exact ⟨b, (bind_run_of_ok hm).trans hb⟩

theorem Idle.bind (hm : Idle m s) (hf : ∀ a, Idle (f a) s) : Idle (m >>= f) s := by
  obtain ⟨a, ha⟩ := hm
  exact idle_bind_of_ok ha (hf a)

theorem idle_get_bind {f : σ → EStateM ε σ β} (h : Idle (f s) s) : Idle (get >>= f) s := h

theorem idle_mapM (h : ∀ x ∈ l, Idle (f x) s) : Idle (l.mapM f) s := by
  induction l with
  | nil => exact idle_pure []
  | cons x l ih =>
    rw [List.mapM_cons]
    refine .bind (h x (.head _)) fun b => .bind (ih fun y hy => h y (.tail _ hy)) fun bs => ?_
    exact idle_pure (b :: bs)

/-- Computations that give the same result in every state, and leave it as it is, do so in a row. -/
theorem mapM_run (hf : ∀ x s b s₁, f x s = .ok b s₁ → ∀ t, f x t = .ok b t) {s₁ : σ} {bs : List β}
    (h : l.mapM f s = .ok bs s₁) (t : σ) : l.mapM f t = .ok bs t := by
  induction l generalizing s bs with
  | nil =>
    cases h
    rfl
  | cons x l ih =>
    rw [List.mapM_cons] at h ⊢
    obtain ⟨b, s₂, hb, hrest⟩ := bind_eq_ok.1 h
    obtain ⟨bs', s₃, hbs, hpure⟩ := bind_eq_ok.1 hrest
    cases hpure
    rw [bind_run_of_ok (hf x s b s₂ hb t), bind_run_of_ok (ih hbs)]
    rfl

theorem idle_forM {f : α → EStateM ε σ Unit} (h : ∀ x ∈ l, Idle (f x) s) : Idle (l.forM f) s := by
  induction l with
  | nil => exact idle_pure ()
  | cons x l ih => exact .bind (h x (.head _)) fun _ => ih fun y hy => h y (.tail _ hy)

end Idle

theorem MethodDecl.kind_ne_blank (decl : MethodDecl) : decl.kind ≠ .blank := by
  fun_cases MethodDecl.kind <;> simp

/-- Nothing is done without new address edges, nodes to look at again and objects to add. -/
theorem Solving.solve_nil {v : Solver} (hcursor : v.cursor = v.graph.addressEdges.size)
    (hqueue : v.queue = {}) : solve [] [] v = .ok () v := by
  have hstart : start [] [] v = .ok () v := by
    rw [start, get_bind_run, hcursor, ← Array.length_toList, List.drop_length]
    rfl
  rw [solve, get_bind_run, bind_run_of_ok hstart]
  simp only [budget, drain, get_bind_run, hqueue]
  rfl

/-- A field that an object has is found. -/
theorem Growing.objectField_eq {g : FlowGraph} {o x : NodeId} {key : FieldKey}
    (h : g.IsField x o key) : objectField o key g = .ok x g := by
  obtain ⟨a, ha, hx⟩ := h
  have hnode : node o g = .ok a g := by
    simp only [node, FlowGraph.node_eq_ok.2 ha]
  rw [objectField, bind_run_of_ok hnode, hx]
  rfl

namespace State

variable {p : Problem} {s t : State} {m : MethodId}

/-- A method was made an entry, under the context that it had at the time. -/
structure Entered (p : Problem) (s : State) (m : MethodId) : Prop where
  declared : ∃ decl, p.scene.method m = .ok decl
  classified : s.calls.Classified m
  context : ∃ t : ContextTable, t.Has .empty ∧
    (t.enter p.settings.policy p.settings.depth m).table.Extends s.contexts ∧
    ((t.enter p.settings.policy p.settings.depth m).context, m) ∈ s.entries ∧
    s.Awaits ((t.enter p.settings.policy p.settings.depth m).context, m)

theorem Entered.retains (h : s.Entered p m) (hr : s.Retains p t) : t.Entered p m where
  declared := h.declared
  classified := h.classified.mono hr.calls
  context := by
    obtain ⟨table, hempty, hext, hentry, hawaits⟩ := h.context
    exact ⟨table, hempty, hext.trans hr.contexts, hr.entries _ hentry, hr.awaits _ hawaits⟩

/-- The number of rounds does not matter. -/
theorem Finished.withRounds (h : s.Finished p) (rounds : Nat) : State.Finished p { s with rounds } :=
  { h.toBetween.withRounds rounds with seen := h.seen, idle := h.idle }

end State

namespace Run
open State

variable {p : Problem} {s : State} {m : MethodId}

/-- The entries do not depend on what was analysed before. -/
theorem entryMethods_run {ms : List MethodId} {s₁ : State} (h : entryMethods p s = .ok ms s₁)
    (t : State) : entryMethods p t = .ok ms t := by
  unfold entryMethods at h ⊢
  cases hnames : p.settings.entries with
  | nil =>
    rw [hnames] at h
    cases h
    rfl
  | cons name names =>
    rw [hnames] at h
    refine mapM_run (fun name s m s₁ hm t => ?_) h t
    cases hfound : p.scene.methodNamed? name with
    | error e =>
      rw [hfound] at hm
      cases hm
    | ok m? =>
      rw [hfound] at hm
      cases m? with
      | none => cases hm
      | some m =>
        cases hm
        rfl

theorem reach_run {decl : MethodDecl} (hdecl : p.scene.method m = .ok decl) :
    reach p m s = .ok () { s with calls := (s.calls.addNode m decl.kind).2 } := by
  rw [reach, hdecl]
  rfl

/-- Whatever is made an entry has a context, a kind and a place among the entries. -/
theorem ensures_addEntry_entered (hempty : s.contexts.Has .empty) (hcalls : s.calls.Coherent) :
    Ensures (addEntry p m) s fun _ s' => s'.Entered p m := by
  refine ensures_bind (Q := fun c s₁ =>
    c = (s.contexts.enter p.settings.policy p.settings.depth m).context ∧
    s₁.contexts = (s.contexts.enter p.settings.policy p.settings.depth m).table ∧
    s₁.calls = s.calls) (ensures_modifyGet ⟨rfl, rfl, rfl⟩) ?_
  rintro c s₁ ⟨rfl, htable, hsame⟩
  rw [reach, bind_assoc]
  refine ensures_lift_bind fun decl hdecl => ?_
  have hkind : (s₁.calls.addNode m decl.kind).2.Classified m := by
    rw [hsame]
    exact hcalls.classified_addNode decl.kind_ne_blank
  refine ensures_bind (Q := fun _ s₂ => s₂.contexts = s₁.contexts ∧ s₂.calls.Classified m)
    (ensures_discard (ensures_modifyGet ⟨rfl, hkind⟩)) ?_
  rintro _ s₂ ⟨h₂, hkind⟩
  refine ensures_bind (Q := fun _ s₃ => s₃.contexts = s₁.contexts ∧ s₃.calls.Classified m ∧
    ((s.contexts.enter p.settings.policy p.settings.depth m).context, m) ∈ s₃.entries)
    (ensures_modify ?_) ?_
  · split
    · next hold => exact ⟨h₂, hkind, by simpa using hold⟩
    · exact ⟨h₂, hkind, Array.mem_push_self⟩
  rintro _ s₃ ⟨h₃, hkind, hentry⟩
  have hext : (s.contexts.enter p.settings.policy p.settings.depth m).table.Extends s₃.contexts := by
    rw [h₃, htable]
    exact .refl _
  refine ensures_modify ?_
  split
  · next hold =>
    exact ⟨⟨decl, hdecl⟩, hkind, s.contexts, hempty, hext, hentry,
      .inr (Std.TreeSet.contains_iff_mem.1 hold)⟩
  · refine ⟨⟨decl, hdecl⟩, hkind, s.contexts, hempty, hext, hentry, .inl ?_⟩
    rw [Queue.toList_push]
    exact List.mem_append_right _ (.head _)

theorem idle_addEntry (hs : s.Finished p) (h : s.Entered p m) : Idle (addEntry p m) s := by
  obtain ⟨table, hempty, hext, hentry, hawaits⟩ := h.context
  obtain ⟨decl, hdecl⟩ := h.declared
  have henter := ContextTable.enter_of_extends hempty hext
  have hreach : reach p m s = .ok () s := by
    rw [reach_run hdecl, h.classified.addNode]
  refine idle_bind_of_ok (a := (table.enter p.settings.policy p.settings.depth m).context) ?_
    (idle_bind_of_ok hreach (.bind ⟨(), ?_⟩ fun _ => ⟨(), ?_⟩))
  · rw [choose, modifyGet_run, henter]
    rfl
  · have hold : s.entries.contains
        ((table.enter p.settings.policy p.settings.depth m).context, m) = true := by
      simpa using hentry
    exact congrArg (EStateM.Result.ok ()) (if_pos hold)
  · exact congrArg (EStateM.Result.ok ())
      (if_pos (Std.TreeSet.contains_iff_mem.2 (hs.mem_instantiated hawaits)))

theorem expand_eq (hs : s.Finished p) (fuel : Nat) : expand p (fuel + 1) s = .ok false s := by
  have hdrain : drainAgenda p (fuel + 1) false s = .ok false s := by
    rw [drainAgenda, get_bind_run, (Queue.pop?_eq_none_iff _).2 hs.agenda_eq_nil]
    rfl
  rw [expand, bind_run_of_ok hdrain]
  rfl

theorem solve_eq (hs : s.Finished p) : solve p s = .ok ⟨false, []⟩ s := by
  have hidle := hs.idle
  simp only [hasPending, Bool.or_eq_false_iff, Bool.not_eq_false'] at hidle
  obtain ⟨⟨-, hretrigger⟩, hupdates⟩ := hidle
  have hwith : solveWith [] [] s = .ok ⟨false, []⟩ s := by
    simp only [solveWith]
    rw [show Solving.solve [] [] { graph := s.graph, points := s.points, cursor := s.cursor } = _
      from Solving.solve_nil hs.seen rfl]
    rfl
  rw [solve, modifyGet_bind_run]
  dsimp only
  rw [List.isEmpty_iff.1 (Std.TreeSet.isEmpty_toList.trans hretrigger), updatesIn_of_isEmpty hupdates,
    ← eq_empty_of_isEmpty hretrigger, ← eq_empty_of_isEmpty_map hupdates]
  exact hwith

theorem idle_callThroughField {site : DynamicSite} {c : ContextId} {o : NodeId} (hs : s.Sound p)
    (ho : o.index < s.graph.nodes.size) (hdone : s.FieldDone site c o) :
    Idle (callThroughField p site c o) s := by
  unfold callThroughField
  split
  · exact idle_pure []
  next hname =>
  obtain ⟨a, ha⟩ : ∃ a, s.graph.At o a := ⟨_, Array.getElem?_eq_getElem ho⟩
  refine idle_bind_of_ok (node_eq ha) ?_
  split
  · exact idle_pure []
  next hfun =>
  have hnot : ¬ s.graph.IsFunction o := by
    rintro ⟨a', ha', hf⟩
    cases Option.some.inj (ha'.symm.trans ha)
    exact hfun hf
  obtain ⟨x, hx, hall⟩ := hdone hname hnot
  have hfield : grow (Growing.objectField o (.named site.signature.name)) s = .ok x s := by
    simp only [grow, Growing.objectField_eq hx]
  refine idle_bind_of_ok hfield (idle_get_bind (.bind (idle_mapM fun f hf => ?_) fun _ => idle_pure _))
  have hhas : s.points.Has x f := Collection.mem_enumerate.1 hf
  obtain ⟨b, hnode⟩ : ∃ b, s.graph.At f b := ⟨_, Array.getElem?_eq_getElem (hs.objects x f hhas)⟩
  refine idle_bind_of_ok (node_eq hnode) ?_
  split
  · exact idle_pure []
  · next info hinfo =>
    have hcalled := hall f hhas ⟨_, hnode, by rw [Node.isFunction, hinfo]; rfl⟩
    refine idle_get_bind ?_
    rw [if_pos (Std.TreeSet.contains_iff_mem.2 hcalled)]
    exact idle_pure []

theorem idle_retry (hs : s.Answered p) : Idle (retry p) s := by
  refine idle_get_bind (.bind (idle_mapM ?_) fun _ => idle_pure _)
  rintro ⟨i, c, o⟩ hd
  have hmem := Array.mem_toList_iff.1 hd
  obtain ⟨site, hsite⟩ := hs.unresolved _ hmem
  refine idle_get_bind ?_
  rw [hsite]
  exact idle_callThroughField hs.toSound (hs.recorded.unresolved _ hmem).2
    (hs.attempts _ hmem site hsite)

/-- Another round finds nothing to do. -/
theorem round_eq (hs : s.Finished p) (fuel : Nat) :
    round p (fuel + 1) s = .ok false { s with rounds := s.rounds + 1 } := by
  have hs' := hs.withRounds (s.rounds + 1)
  obtain ⟨_, hretry⟩ := idle_retry hs'.toAnswered
  rw [round, modify_bind_run, bind_run_of_ok (expand_eq hs' fuel), bind_run_of_ok (solve_eq hs')]
  refine (bind_run_of_ok hretry).trans ?_
  exact congrArg (EStateM.Result.ok · _) hs'.idle

end Run

namespace Problem

variable {p : Problem} {fuel : Nat} {s : State}

/-- The entries of an analysis are known from its start on. -/
theorem entered_of_start (h : p.start = .ok () s) :
    ∃ ms, (∀ t, Run.entryMethods p t = .ok ms t) ∧ ∀ m ∈ ms, s.Entered p m := by
  obtain ⟨ms, s₁, hms, hadd⟩ := bind_eq_ok.1 h
  have hrun := Run.entryMethods_run hms
  cases (hrun _).symm.trans hms
  refine ⟨ms, hrun, ?_⟩
  have hall := ensures_forM_each (L := fun _ => False) (f := Run.addEntry p)
    (I := fun t => t.Grounded p) (P := fun m t => t.Entered p m) ms (State.grounded_initial p)
    fun m _ t ht => ?_
  · exact (hall.1 hadd).2.1
  · have hentry := (Run.grounds_addEntry (m := m) ht).and
      (Run.ensures_addEntry_entered ht.sane.contexts.has_empty ht.tracked.coherent)
    refine hentry.mono fun _ t' h' => ⟨h'.1.grounded ht, h'.2, fun m' hm' => ?_⟩
    exact hm'.retains (h'.1.turns.retains ht.sane)

theorem start_of_analyze (h : p.analyze fuel = .ok () s) : ∃ s₀, p.start = .ok () s₀ := by
  rw [analyze, Run.analyze, ← bind_assoc, bind_eq_ok] at h
  obtain ⟨_, s₀, hstart, -⟩ := h
  exact ⟨s₀, hstart⟩

/-- An analysis that is run again on its own result succeeds after one more round, however much fuel
it has, and nothing but the number of rounds is different. -/
theorem analyze_idempotent (h : p.analyze fuel = .ok () s) (n : Nat) :
    Run.analyze p (n + 1) s = .ok () { s with rounds := s.rounds + 1 } := by
  have hs := finished_of_analyze h
  obtain ⟨s₀, hstart⟩ := start_of_analyze h
  obtain ⟨ms, hms, hentered⟩ := entered_of_start hstart
  have hretains := retains_of_after h (after_zero.2 ⟨hstart, rfl⟩)
  have hadd : Idle (Run.addEntries p ms) s :=
    idle_forM fun m hm => Run.idle_addEntry hs ((hentered m hm).retains hretains)
  obtain ⟨_, hadd⟩ := hadd
  rw [Run.analyze, bind_run_of_ok (hms s), bind_run_of_ok hadd, Run.rounds,
    bind_run_of_ok (Run.round_eq hs n)]
  rfl

/-- After three rounds there is a fourth one, which also tries the call `x.run()` again. -/
theorem analyze_idempotent_storedFunction :
    ∃ s, storedFunction.analyze 3 = .ok () s ∧ s.rounds = 3 ∧
      (⟨0⟩, .empty, ⟨0⟩) ∈ s.unresolved ∧
      Run.analyze storedFunction 1 s = .ok () { s with rounds := 4 } := by
  obtain ⟨_, s, h, hs⟩ := exists_of_endsWith (r := storedFunction.analyze 3)
    (q := fun _ s => s.rounds == 3 && s.unresolved.toList.contains (⟨0⟩, .empty, ⟨0⟩))
    (by decide +kernel)
  obtain ⟨hrounds, hleft⟩ := Bool.and_eq_true_iff.1 hs
  have hrounds : s.rounds = 3 := by simpa using hrounds
  refine ⟨s, h, hrounds, by simpa using hleft, ?_⟩
  rw [analyze_idempotent h 0, hrounds]

end Problem

end PointsTo
