import PointsTo.Proofs.Analysis.Rounds

/-! What holds when an analysis has ended: no constraint is violated and no call is left. -/
namespace PointsTo

namespace State

variable {p : Problem} {w : Phase} {s s' : State}

/-- An analysis has come to its end. -/
structure Finished (p : Problem) (s : State) : Prop extends Between p s where
  seen : s.cursor = s.graph.addressEdges.size
  idle : s.hasPending = false

theorem Between.steps (hs : s.Between p) (h : s.Steps p w s') (hw : w.instantiates = false) :
    s'.Between p where
  toSound := h.turns.sound hs.toSound
  instances := hs.instances.retains (h.retains hs.toSane) (h.sane hs.toSane) h.instantiated
  dispatched := hs.dispatched.evolves h.turns.evolves hs.toSound hw
  attempts d hd site hsite := by
    have hev := h.turns.evolves
    rw [h.tables.2.1] at hd
    obtain ⟨site', hsite'⟩ := hs.unresolved d hd
    cases Option.some.inj ((hev.sites.dynamic? hsite').symm.trans hsite)
    exact (hs.attempts d hd site hsite').evolves hev hs.toSound

theorem between_initial (p : Problem) : (initial p.settings).Between p := by
  have hno : ∀ n o, ¬ (initial p.settings).points.Has n o := by
    simp [initial, DiffTable.has_iff, DiffTable.Passed, DiffTable.Owes, DiffTable.settledOf,
      DiffTable.pendingOf, DiffTable.empty, Collection.contains_empty]
  exact {
    graph := .empty p.scene
    indexed := by simp [initial, FlowGraph.Indexed]
    sites := SiteTable.valid_empty
    contexts := ContextTable.valid_empty
    recorded := {
      summaries := by simp [initial]
      described := by simp [initial]
      captures := by simp [initial]
      singletons := by simp [initial]
      listed := by simp [initial, CallGraph.Listed]
      static := by simp [initial]
      items := by simp [initial]
      registered := by simp [initial, FlowGraph.Registers, FlowGraph.At]
      waiting := by simp [initial, FlowGraph.Attaches, FlowGraph.At]
      agenda := by simp [initial, Queue.toList]
      instantiated := by simp [initial]
      resolved := by simp [initial]
      unresolved := by simp [initial]
      fieldDispatched := by simp [initial] }
    ready := {
      range := fun n o ho => absurd ho (hno n o)
      settled := fun n o ho => hno n o (DiffTable.has_iff.2 (.inr ho))
      addresses := by simp [initial, solver]
      copies := fun a _ o _ ho => absurd ho (hno a o)
      accesses := fun _ b _ o _ ho => absurd ho (hno b o) }
    cursor := Nat.zero_le _
    objects := fun n o ho => absurd ho (hno n o)
    updates := by simp [initial]
    unresolved := by simp [initial]
    dispatched := fun n _ o _ ho => absurd ho (hno n o)
    attempts := by simp [initial, Retried]
    instances := by simp [initial, Instances] }

end State

namespace Run
open State

variable {p : Problem} {s : State}

theorem ensures_rounds {work fuel : Nat} (hs : s.Between p) :
    EnsuresOr (fun s' => s.Precedes s') (rounds p work fuel) s fun _ s' =>
      s'.Finished p ∧ s.Retains p s' := by
  induction fuel generalizing s with
  | zero => exact ensures_throw fun _ => .refl s
  | succ fuel ih =>
    refine ensures_bind (ensures_round_precedes hs) ?_
    intro again s₁ h₁
    cases again with
    | true =>
      refine ((ih h₁.between).weaken fun s' h' => h₁.precedes.trans h').mono fun _ s' h' => ?_
      exact ⟨h'.1, h₁.retains.trans h'.2⟩
    | false => exact ensures_pure ⟨⟨h₁.between, (h₁.ends rfl).1, (h₁.ends rfl).2⟩, h₁.retains⟩

theorem walks_entryMethods {w : Phase} {k : Caller} : Walks p w k (entryMethods p) := by
  unfold entryMethods
  split
  · exact .pure _
  · refine .mapM fun name _ => .bind (walks_lift _) fun m? => ?_
    split
    · exact .pure _
    · exact .throw nofun

theorem ensures_entries (hs : s.Between p) :
    Ensures (entryMethods p >>= addEntries p) s fun _ s' => s'.Between p := by
  have hknows : s.extent.Knows ⟨.empty, none⟩ := ⟨hs.contexts.has_empty, nofun⟩
  refine Ensures.mono (Follows.bind (walks_entryMethods (w := .dispatch)) (fun ms => ?_) s
    ⟨hs.toSane, hknows⟩) fun _ s' h' => hs.steps h' (by decide)
  exact .forM fun _ _ => walks_addEntry

end Run

namespace Problem

variable {p : Problem} {fuel : Nat} {s : State}

/-- What an analysis does before its first round. -/
def start (p : Problem) : EStateM.Result Failure State Unit :=
  (Run.entryMethods p >>= Run.addEntries p) (State.initial p.settings)

theorem between_of_start (h : p.start = .ok () s) : s.Between p :=
  (Run.ensures_entries (State.between_initial p)).1 h

theorem analyze_of_start (h : p.start = .ok () s) : p.analyze fuel = Run.rounds p fuel fuel s := by
  rw [analyze, Run.analyze, ← bind_assoc]
  simp only [start, bind, EStateM.bind] at h ⊢
  rw [h]

/-- An analysis fails at its entries, or it consists of rounds from the same state on. -/
theorem analyze_cases (p : Problem) :
    (∃ s, p.start = .ok () s ∧ ∀ fuel, p.analyze fuel = Run.rounds p fuel fuel s) ∨
      ∃ e s, e ≠ .outOfFuel ∧ ∀ fuel, p.analyze fuel = .error e s := by
  cases h : p.start with
  | ok u s => exact .inl ⟨s, rfl, fun _ => analyze_of_start h⟩
  | error e s =>
    refine .inr ⟨e, s, (Run.ensures_entries (State.between_initial p)).2 h, fun fuel => ?_⟩
    rw [analyze, Run.analyze, ← bind_assoc]
    simp only [start, bind, EStateM.bind] at h ⊢
    rw [h]

theorem finished_of_analyze (h : p.analyze fuel = .ok () s) : s.Finished p := by
  rcases p.analyze_cases with ⟨s₀, hstart, heq⟩ | ⟨e, s', -, heq⟩
  · rw [heq] at h
    exact ((Run.ensures_rounds (between_of_start hstart)).1 h).1
  · rw [heq] at h
    cases h

end Problem

namespace State

variable {p : Problem} {s : State}

theorem Finished.not_mem_retrigger (h : s.Finished p) (n : NodeId) : n ∉ s.retrigger := by
  have hidle := h.idle
  simp only [hasPending, Bool.or_eq_false_iff, Bool.not_eq_false'] at hidle
  exact (isEmpty_iff_forall_not_mem _).1 hidle.1.2 n

theorem Finished.addresses (h : s.Finished p) {o d : NodeId} (he : s.graph.Edge o d .address) :
    s.points.Has d o := by
  obtain ⟨e, he, rfl, rfl, hk⟩ := he
  obtain ⟨i, hi⟩ := Array.mem_iff_getElem?.1 he
  refine h.ready.addresses ⟨i⟩ ?_ e hi
  have hmem := (h.graph.tables.addresses ⟨i⟩).2 ⟨e, hi, hk⟩
  rwa [State.solver, h.seen, ← Array.length_toList, List.take_length, Array.mem_toList_iff]

theorem Finished.copies (h : s.Finished p) {a b o : NodeId} (hc : s.graph.CopyEdge a b)
    (ho : s.points.Has a o) : s.points.Has b o :=
  (h.ready.copies a b o hc ho).resolve_left fun hn =>
    h.not_mem_retrigger a (Std.TreeSet.mem_toList.1 hn)

/-- At the end every load and store through a field reference has reached the part of every object
that it concerns. -/
theorem Finished.served (h : s.Finished p) {r b o : NodeId} {key : FieldKey}
    (hr : s.graph.IsFieldRef r b key) (ho : s.points.Has b o) (hobj : s.graph.IsObject o) :
    Solver.Served s.graph r key o s.graph :=
  (h.ready.accesses r b key o hr ho hobj).resolve_left fun hn =>
    h.not_mem_retrigger b (Std.TreeSet.mem_toList.1 hn)

theorem Finished.agenda_eq_nil (h : s.Finished p) : s.agenda.toList = [] := by
  have hidle := h.idle
  simp only [hasPending, Bool.or_eq_false_iff, Bool.not_eq_false'] at hidle
  exact Queue.isEmpty_iff.1 hidle.1.1

/-- Whatever awaits its instantiation has got it at the end. -/
theorem Finished.mem_instantiated (h : s.Finished p) {a : Activation} (ha : s.Awaits a) :
    a ∈ s.instantiated := by
  refine ha.resolve_left fun hmem => ?_
  rw [h.agenda_eq_nil] at hmem
  cases hmem

end State

def plainMethod (i : Nat) (name : String) (body : Body) : MethodDecl where
  id := ⟨i⟩
  name := name
  owner := ⟨0⟩
  signature := ⟨"Main", name⟩
  isStatic := true
  isAbstract := false
  params := []
  returnType := .void
  body := some body
  outer := none

/-- `x = new Foo; f = g; x.run = f; y = x.run; x.run(); y()`, where the class of `x` is unknown. -/
def storedFunction : Problem where
  scene := {
    files := #[⟨⟨0⟩, "main", ⟨0⟩, ⟨0⟩, ∅, ∅⟩]
    classes := #[⟨⟨0⟩, "Main", none, ⟨0⟩, none, false, ∅⟩, ⟨⟨1⟩, "Foo", none, ⟨0⟩, none, false, ∅⟩]
    methods := #[
      plainMethod 0 "main" {
        locals := (((∅ : NameMap ValueId).insert "x" ⟨0⟩).insert "f" ⟨1⟩).insert "y" ⟨2⟩
        stmts := #[⟨0⟩, ⟨1⟩, ⟨2⟩, ⟨3⟩, ⟨4⟩, ⟨5⟩] },
      plainMethod 1 "g" {}]
    stmts := #[⟨⟨0⟩, .assign ⟨0⟩ ⟨3⟩⟩, ⟨⟨0⟩, .assign ⟨1⟩ ⟨4⟩⟩, ⟨⟨0⟩, .assign ⟨5⟩ ⟨1⟩⟩,
      ⟨⟨0⟩, .assign ⟨2⟩ ⟨5⟩⟩, ⟨⟨0⟩, .call ⟨6⟩⟩, ⟨⟨0⟩, .call ⟨7⟩⟩]
    values := #[.var "x" .any, .var "f" .any, .var "y" .any, .new "Foo", .functionRef ⟨1⟩,
      .field ⟨0⟩ ⟨"Foo", "run"⟩, .instanceCall ⟨0⟩ ⟨Name.unknownClass, "run"⟩ [],
      .pointerCall ⟨2⟩ []] }

/-- The points-to sets at the end of an analysis satisfy every edge, and nothing is pending. -/
theorem Problem.analyze_settled {p : Problem} {fuel : Nat} {s : State}
    (h : p.analyze fuel = .ok () s) :
    s.cursor = s.graph.addressEdges.size ∧ (∀ n, s.points.hasPending n = false) ∧
    s.agenda.toList = [] ∧ s.retrigger.isEmpty ∧ s.updates.isEmpty ∧
    (∀ o d, s.graph.Edge o d .address → s.points.Has d o) ∧
    (∀ a b o, s.graph.CopyEdge a b → s.points.Has a o → s.points.Has b o) ∧
    (∀ r d b key o, s.graph.Edge r d .load → s.graph.IsFieldRef r b key → s.points.Has b o →
      s.graph.IsObject o → ∃ x, s.graph.IsField x o key ∧ s.graph.Edge x d .copy) ∧
    (∀ a r b key o, s.graph.Edge a r .write → s.graph.IsFieldRef r b key → s.points.Has b o →
      s.graph.IsObject o → ∃ x, s.graph.IsField x o key ∧ s.graph.Edge a x .copy) := by
  have hf := finished_of_analyze h
  have hidle := hf.idle
  simp only [State.hasPending, Bool.or_eq_false_iff, Bool.not_eq_false'] at hidle
  refine ⟨hf.seen, fun n => ?_, Queue.isEmpty_iff.1 hidle.1.1, hidle.1.2, hidle.2, ?_, ?_, ?_, ?_⟩
  · rw [← Bool.not_eq_true, DiffTable.hasPending_iff]
    rintro ⟨o, ho⟩
    exact hf.ready.settled n o ho
  · rintro o d ⟨e, he, rfl, rfl, hk⟩
    obtain ⟨i, hi⟩ := Array.mem_iff_getElem?.1 he
    refine hf.ready.addresses ⟨i⟩ ?_ e hi
    have hmem := (hf.graph.tables.addresses ⟨i⟩).2 ⟨e, hi, hk⟩
    rwa [State.solver, hf.seen, ← Array.length_toList, List.take_length, Array.mem_toList_iff]
  · exact fun a b o hc ho => hf.copies hc ho
  · exact fun r d b key o he hr ho hobj => (hf.served hr ho hobj).1 d he
  · exact fun a r b key o he hr ho hobj => (hf.served hr ho hobj).2 a he

/-- Three rounds give five sets their objects, two of them through the field `run`. -/
theorem Problem.analyze_settled_storedFunction :
    ∃ s, storedFunction.analyze 3 = .ok () s ∧ s.cursor = 2 ∧ s.graph.addressEdges.size = 2 ∧
      s.retrigger.isEmpty ∧ ∀ a b o, s.graph.CopyEdge a b → s.points.Has a o → s.points.Has b o := by
  obtain ⟨_, s, h, hs⟩ := exists_of_endsWith (r := storedFunction.analyze 3)
    (q := fun _ s => s.cursor == 2) (by decide +kernel)
  have hset := analyze_settled h
  have hcursor : s.cursor = 2 := by simpa using hs
  exact ⟨s, h, hcursor, hset.1 ▸ hcursor, hset.2.2.2.1, hset.2.2.2.2.2.2.1⟩

/-- At the end of an analysis every call is dispatched on every object of its receiver, and a
dispatch that found no callee has called all functions in the field of its name. -/
theorem Problem.analyze_dispatched {p : Problem} {fuel : Nat} {s : State}
    (h : p.analyze fuel = .ok () s) :
    (∀ n d o, s.graph.Registers n d → s.points.Has n o → s.graph.IsObject o →
      (d.1, d.2, o) ∈ s.resolved) ∧
    ∀ i c o, (i, c, o) ∈ s.unresolved → ∃ site, s.calls.sites.dynamic? i = some site ∧
      (site.signature.name ≠ Name.pointerCall → ¬ s.graph.IsFunction o →
        ∀ x g, s.graph.IsField x o (.named site.signature.name) → s.points.Has x g →
          s.graph.IsFunction g → (i, c, g) ∈ s.fieldDispatched) := by
  have hf := finished_of_analyze h
  constructor
  · intro n d o hd ho hobj
    exact (hf.dispatched n d o hd ho hobj).resolve_right fun h => hf.not_mem_retrigger n h.2
  · intro i c o hd
    obtain ⟨site, hsite⟩ := hf.unresolved _ hd
    have hid : site.id = i := hf.sites.dynamic_id hsite
    exact ⟨site, hsite, fun hname hfun x g hx hg hgf =>
      hid ▸ hf.retried _ hd site hsite hname hfun x g hx hg hgf⟩

/-- The call `x.run()` finds no callee by the class of the object, and calls `g` through the field. -/
theorem Problem.analyze_dispatched_storedFunction :
    ∃ s, storedFunction.analyze 3 = .ok () s ∧ (⟨0⟩, .empty, ⟨0⟩) ∈ s.unresolved ∧
      ∃ site, s.calls.sites.dynamic? ⟨0⟩ = some site ∧
        (site.signature.name ≠ Name.pointerCall → ¬ s.graph.IsFunction ⟨0⟩ →
          ∀ x g, s.graph.IsField x ⟨0⟩ (.named site.signature.name) → s.points.Has x g →
            s.graph.IsFunction g → (⟨0⟩, .empty, g) ∈ s.fieldDispatched) := by
  obtain ⟨_, s, h, hs⟩ := exists_of_endsWith (r := storedFunction.analyze 3)
    (q := fun _ s => s.unresolved.toList.contains (⟨0⟩, .empty, ⟨0⟩)) (by decide +kernel)
  have hmem : (⟨0⟩, .empty, ⟨0⟩) ∈ s.unresolved := by simpa using hs
  exact ⟨s, h, hmem, (analyze_dispatched h).2 _ _ _ hmem⟩

end PointsTo
