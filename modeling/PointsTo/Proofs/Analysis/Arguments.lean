import PointsTo.Proofs.Analysis.StaticCalls

/-! Which edges bind the arguments of a call to the formals of its callee.
Arguments and formals meet by position, up to the first formal without a local. -/
namespace PointsTo

variable {formals : List (Option ValueId)}

namespace State

variable {p : Problem} {s s₁ s' : State}

/-- From `s` to `s'` the graph gets exactly the copy edges that `P` tells of. The sources of the
edges that it did not have are listed in `new` and woken up, and nothing else but nodes changes. -/
structure Copies (p : Problem) (P : NodeId → NodeId → Prop) (s : State) (new : List NodeId)
    (s' : State) : Prop where
  consistent : s'.graph.Consistent p.scene
  persists : s.graph.Persists s'.graph
  frame : s' = { s with graph := s'.graph, retrigger := s'.retrigger }
  edges : ∀ x y k, s'.graph.Edge x y k ↔ s.graph.Edge x y k ∨ k = .copy ∧ P x y
  sources : ∀ x, x ∈ new ↔ ∃ y, P x y ∧ ¬ s.graph.Edge x y .copy
  woken : ∀ n, n ∈ s'.retrigger ↔ n ∈ s.retrigger ∨ n ∈ new

namespace Copies

variable {P Q : NodeId → NodeId → Prop} {new new' : List NodeId}

theorem congr (h : Copies p P s new s') (hPQ : ∀ x y, P x y ↔ Q x y) : Copies p Q s new s' :=
  (funext₂ fun x y => propext (hPQ x y) : P = Q) ▸ h

theorem trans (h : Copies p P s new s₁) (h' : Copies p Q s₁ new' s') :
    Copies p (fun x y => P x y ∨ Q x y) s (new ++ new') s' where
  consistent := h'.consistent
  persists := h.persists.trans h'.persists
  frame := by rw [h'.frame, h.frame]
  edges x y k := by
    rw [h'.edges, h.edges]
    tauto
  sources x := by
    rw [List.mem_append, h.sources, h'.sources]
    simp only [h.edges]
    grind
  woken n := by
    rw [h'.woken, h.woken, List.mem_append]
    tauto

/-- Nodes come without edges. -/
theorem nodes {g : FlowGraph} (h : s.graph.Grows p.scene g) :
    Copies p (fun _ _ => False) s [] { s with graph := g } where
  consistent := h.consistent
  persists := h.toAdds.persists
  frame := rfl
  edges x y k := by simp [h.toAdds.edge_iff]
  sources x := by simp
  woken n := by simp

theorem nil (h : s.graph.Consistent p.scene) : Copies p (fun _ _ => False) s [] s :=
  nodes (.refl h)

theorem nodeOf (h : Copies p P s new s') (hs : s.graph.Consistent p.scene) {c : ContextId}
    {v : ValueId} {n : NodeId} (hn : s.graph.nodeOf? p.scene c v = .ok (some n)) :
    s'.graph.nodeOf? p.scene c v = .ok (some n) :=
  h.persists.nodeOf? hs h.consistent hn

theorem nodeAt (h : Copies p P s new s') (hs : s.graph.Consistent p.scene) {c : ContextId}
    {a : CallArg} {n : NodeId} (hn : s.NodeAt p c a n) : s'.NodeAt p c a n := by
  cases a with
  | value v => exact h.nodeOf hs hn
  | node m => exact hn

end Copies

end State

/-- The argument `a` meets the formal `v` at a position that no formal without a local precedes. -/
structure Meets (args : List CallArg) (formals : List (Option ValueId)) (i : Nat) (a : CallArg)
    (v : ValueId) : Prop where
  argument : args[i]? = some a
  formal : formals[i]? = some (some v)
  earlier : ∀ j < i, ∃ u, formals[j]? = some (some u)

theorem meets_cons {a b : CallArg} {u v : ValueId} {args : List CallArg} {i : Nat} :
    Meets (a :: args) (some u :: formals) i b v ↔
      (i = 0 ∧ b = a ∧ v = u) ∨ ∃ j, i = j + 1 ∧ Meets args formals j b v := by
  cases i with
  | zero =>
    constructor
    · rintro ⟨hb, hv, -⟩
      exact .inl ⟨rfl, by simpa using hb.symm, by simpa using hv.symm⟩
    · rintro (⟨-, rfl, rfl⟩ | ⟨j, hj, -⟩)
      · exact ⟨rfl, rfl, by simp⟩
      · cases hj
  | succ i =>
    constructor
    · rintro ⟨hb, hv, hfirst⟩
      exact .inr ⟨i, rfl, hb, hv, fun j hj => hfirst (j + 1) (Nat.succ_lt_succ hj)⟩
    · rintro (⟨hi, -⟩ | ⟨_, ⟨⟩, hb, hv, hfirst⟩)
      · cases hi
      · refine ⟨hb, hv, fun j hj => ?_⟩
        cases j with
        | zero => exact ⟨u, rfl⟩
        | succ j => exact hfirst j (Nat.lt_of_succ_lt_succ hj)

/-- Nothing meets from a formal without a local on. -/
theorem not_meets {args : List CallArg}
    (h : ∀ a as v vs, args = a :: as → formals = some v :: vs → False) {i : Nat} {a : CallArg}
    {v : ValueId} : ¬ Meets args formals i a v := by
  rintro ⟨ha, hv, hfirst⟩
  cases args with
  | nil => simp at ha
  | cons b bs =>
    cases formals with
    | nil => simp at hv
    | cons f fs =>
      obtain ⟨u, rfl⟩ : ∃ u, f = some u := by
        cases i with
        | zero => exact ⟨v, by simpa using hv⟩
        | succ i => simpa using hfirst 0 (Nat.succ_pos i)
      exact h b bs u fs rfl rfl

/-- `x` is the node of an argument that can carry pointers, and `y` the node of the formal that the
argument meets. -/
def State.Joins (p : Problem) (s : State) (caller callee : ContextId) (args : List CallArg)
    (formals : List (Option ValueId)) (x y : NodeId) : Prop :=
  ∃ i a v, Meets args formals i a v ∧ a.Carries p.scene ∧ s.NodeAt p caller a x ∧
    s.graph.nodeOf? p.scene callee v = .ok (some y)

namespace Run
open State

variable {p : Problem} {s : State} {caller callee c : ContextId} {stmt : Option StmtId}
  {args : List CallArg}

theorem copies_flow {x y : NodeId} (hs : s.graph.Consistent p.scene) :
    Ensures (flow x y .copy stmt) s fun new s' =>
      Copies p (fun x' y' => x' = x ∧ y' = y) s new.toList s' := by
  refine ensures_bind (ensures_grow FlowGraph.ensures_addEdge) ?_
  rintro r _ ⟨g, rfl, ⟨rfl, hold, rfl⟩ | ⟨rfl, hnew, hx, hy, rfl⟩⟩
  · have hedge := hs.tables.hasEdge_iff.1 hold
    exact ensures_pure {
      consistent := hs
      persists := .refl _
      frame := rfl
      edges := by
        rintro x' y' k
        exact ⟨.inl, fun h => h.elim id fun ⟨hk, hx', hy'⟩ => hk ▸ hx' ▸ hy' ▸ hedge⟩
      sources := by
        simp only [Option.toList_none, List.not_mem_nil, false_iff]
        rintro x' ⟨y', ⟨rfl, rfl⟩, hno⟩
        exact hno hedge
      woken := by simp }
  · refine ensures_modify_bind ?_
    exact ensures_pure {
      consistent := hs.withEdge hx hy
      persists := FlowGraph.persists_withEdge
      frame := rfl
      edges := by
        intro x' y' k
        rw [FlowGraph.edge_withEdge]
        tauto
      sources := by
        intro x'
        rw [← Bool.not_eq_true, hs.tables.hasEdge_iff] at hnew
        simp only [Option.toList_some, List.mem_singleton]
        exact ⟨by rintro rfl; exact ⟨y, ⟨rfl, rfl⟩, hnew⟩, fun ⟨_, ⟨h, _⟩, _⟩ => h⟩
      woken := by
        intro n
        rw [mem_insert]
        simp only [Option.toList_some, List.mem_singleton]
        tauto }

theorem copies_value {v : ValueId} (hs : s.graph.Consistent p.scene) :
    Ensures (value p c v stmt) s fun n s' => Copies p (fun _ _ => False) s [] s' ∧
      s'.graph.nodeOf? p.scene c v = .ok (some n) := by
  refine (ensures_grow (FlowGraph.ensures_value hs)).mono ?_
  rintro n _ ⟨g, rfl, hg, hn, -⟩
  exact ⟨.nodes hg, hn⟩

/-- Exactly the arguments that can carry pointers have a node. -/
theorem copies_argument {a : CallArg} (hs : s.graph.Consistent p.scene) :
    Ensures (argument p a c stmt) s fun n? s' => Copies p (fun _ _ => False) s [] s' ∧
      (n? = none → ¬ a.Carries p.scene) ∧
      ∀ n, n? = some n → a.Carries p.scene ∧ s'.NodeAt p c a n := by
  unfold argument
  split
  · next n => exact ensures_pure ⟨.nil hs, nofun, fun m hm => ⟨trivial, Option.some.inj hm⟩⟩
  · next v =>
    refine ensures_lift_bind fun value hvalue => ?_
    split
    · next hpointer =>
      refine ensures_bind (copies_value hs) ?_
      rintro n s₁ ⟨h₁, hn⟩
      refine ensures_pure ⟨h₁, nofun, ?_⟩
      rintro _ ⟨⟩
      exact ⟨⟨value, hvalue, hpointer⟩, hn⟩
    · next hno =>
      refine ensures_pure ⟨.nil hs, fun _ => ?_, nofun⟩
      rintro ⟨value', hvalue', hpointer⟩
      cases Except.ok.inj (hvalue.symm.trans hvalue')
      exact hno hpointer

/-- The binding of arguments to formals: what joins gets an edge, and what is to be joined has
nodes. -/
theorem copies_bindEach {formals : List (Option ValueId)} (hs : s.graph.Consistent p.scene) :
    Ensures (bindEach p stmt caller callee args formals) s fun new s' =>
      Copies p (s'.Joins p caller callee args formals) s new s' ∧
      ∀ i a v, Meets args formals i a v → a.Carries p.scene →
        ∃ x y, s'.NodeAt p caller a x ∧ s'.graph.nodeOf? p.scene callee v = .ok (some y) := by
  fun_induction bindEach generalizing s with
  | case1 a args formal formals ih =>
    refine ensures_bind (copies_argument hs) ?_
    rintro source? s₁ ⟨h₁, hnone, hsome⟩
    cases source? with
    | none =>
      have hno := hnone rfl
      refine (ih h₁.consistent).mono ?_
      rintro new s' ⟨h', hnodes⟩
      refine ⟨?_, fun i b v hm hb => ?_⟩
      · refine (h₁.trans h').congr fun x y => ?_
        simp only [Joins, meets_cons, false_or]
        constructor
        · rintro ⟨i, b, v, hm, hb, hx, hy⟩
          exact ⟨i + 1, b, v, .inr ⟨i, rfl, hm⟩, hb, hx, hy⟩
        · rintro ⟨_, b, v, ⟨-, rfl, -⟩ | ⟨j, -, hm⟩, hb, hx, hy⟩
          · exact absurd hb hno
          · exact ⟨j, b, v, hm, hb, hx, hy⟩
      · rcases meets_cons.1 hm with ⟨-, rfl, -⟩ | ⟨j, -, hm⟩
        · exact absurd hb hno
        · exact hnodes j b v hm hb
    | some source =>
      obtain ⟨hcarries, hsource⟩ := hsome source rfl
      refine ensures_bind (copies_value h₁.consistent) ?_
      rintro target s₂ ⟨h₂, htarget⟩
      refine ensures_bind (copies_flow h₂.consistent) ?_
      rintro new s₃ h₃
      refine ensures_bind (ih h₃.consistent) ?_
      rintro rest s' ⟨h', hnodes⟩
      have hx := h'.nodeAt h₃.consistent (h₃.nodeAt h₂.consistent (h₂.nodeAt h₁.consistent hsource))
      have hy := h'.nodeOf h₃.consistent (h₃.nodeOf h₂.consistent htarget)
      refine ensures_pure ⟨?_, fun i b v hm hb => ?_⟩
      · refine (((h₁.trans h₂).trans h₃).trans h').congr fun x y => ?_
        simp only [Joins, meets_cons, false_or]
        constructor
        · rintro (⟨rfl, rfl⟩ | ⟨i, b, v, hm, hb, hx', hy'⟩)
          · exact ⟨0, a, formal, .inl ⟨rfl, rfl, rfl⟩, hcarries, hx, hy⟩
          · exact ⟨i + 1, b, v, .inr ⟨i, rfl, hm⟩, hb, hx', hy'⟩
        · rintro ⟨_, b, v, ⟨-, rfl, rfl⟩ | ⟨j, -, hm⟩, hb, hx', hy'⟩
          · exact .inl ⟨hx'.unique hx, NodeAt.unique (a := .value v) hy' hy⟩
          · exact .inr ⟨j, b, v, hm, hb, hx', hy'⟩
      · rcases meets_cons.1 hm with ⟨-, rfl, rfl⟩ | ⟨j, -, hm⟩
        · exact ⟨source, target, hx, hy⟩
        · exact hnodes j b v hm hb
  | case2 args formals hno =>
    refine ensures_pure
      ⟨(Copies.nil hs).congr fun x y => ?_, fun i a v hm => absurd hm (not_meets hno)⟩
    simp only [Joins, false_iff, not_exists, not_and]
    exact fun i a v hm => absurd hm (not_meets hno)

theorem copies_bindArguments {site : StaticSite} {m : MethodId} {skip offset : Nat}
    {formals : Array (Option ValueId)} (hs : s.graph.Consistent p.scene)
    (hargs : site.args = some args) (hformals : p.scene.parameterLocals m = .ok formals) :
    Ensures (bindArguments p site caller m callee skip offset) s fun new s' =>
      Copies p (s'.Joins p caller callee (args.drop skip) (formals.toList.drop offset)) s new s' ∧
      ∀ i a v, Meets (args.drop skip) (formals.toList.drop offset) i a v → a.Carries p.scene →
        ∃ x y, s'.NodeAt p caller a x ∧ s'.graph.nodeOf? p.scene callee v = .ok (some y) := by
  unfold bindArguments
  split
  · next hnone =>
    rw [hnone] at hargs
    cases hargs
  · next args' hargs' =>
    cases Option.some.inj (hargs.symm.trans hargs')
    refine ensures_lift_bind fun formals' hformals' => ?_
    cases Except.ok.inj (hformals.symm.trans hformals')
    exact copies_bindEach hs

end Run

/-- The binding of arguments adds exactly the copy edges from the node of an argument that can
carry pointers, among those after the first `skip` ones, to the node of the formal that it meets,
among those after the first `offset` ones. The sources of the edges that are new are given and have
to pass on their whole sets. -/
theorem Run.bindArguments_exact {p : Problem} {s s' : State} {site : StaticSite}
    {caller c : ContextId} {callee : MethodId} {skip offset : Nat} {args : List CallArg}
    {formals : Array (Option ValueId)} {new : List NodeId} (hs : s.graph.Consistent p.scene)
    (hargs : site.args = some args) (hformals : p.scene.parameterLocals callee = .ok formals)
    (h : bindArguments p site caller callee c skip offset s = .ok new s') :
    (∀ i a v, Meets (args.drop skip) (formals.toList.drop offset) i a v → a.Carries p.scene →
      ∃ x y, s'.NodeAt p caller a x ∧ s'.graph.nodeOf? p.scene c v = .ok (some y) ∧
        s'.graph.Edge x y .copy) ∧
    (∀ x y k, s'.graph.Edge x y k → ¬ s.graph.Edge x y k → k = .copy ∧ ∃ i a v,
      Meets (args.drop skip) (formals.toList.drop offset) i a v ∧ a.Carries p.scene ∧
        s'.NodeAt p caller a x ∧ s'.graph.nodeOf? p.scene c v = .ok (some y)) ∧
    (∀ x y k, s.graph.Edge x y k → s'.graph.Edge x y k) ∧
    (∀ x, x ∈ new ↔ ∃ y k, s'.graph.Edge x y k ∧ ¬ s.graph.Edge x y k) ∧
    ∀ n, n ∈ s'.retrigger ↔ n ∈ s.retrigger ∨ n ∈ new := by
  obtain ⟨hcopies, hnodes⟩ := (copies_bindArguments hs hargs hformals).1 h
  refine ⟨fun i a v hm ha => ?_, fun x y k he hno => ?_, fun x y k he => ?_, fun x => ?_,
    hcopies.woken⟩
  · obtain ⟨x, y, hx, hy⟩ := hnodes i a v hm ha
    exact ⟨x, y, hx, hy, (hcopies.edges ..).2 (.inr ⟨rfl, i, a, v, hm, ha, hx, hy⟩)⟩
  · exact ((hcopies.edges ..).1 he).resolve_left hno
  · exact (hcopies.edges ..).2 (.inl he)
  · rw [hcopies.sources]
    constructor
    · rintro ⟨y, hjoins, hno⟩
      exact ⟨y, .copy, (hcopies.edges ..).2 (.inr ⟨rfl, hjoins⟩), hno⟩
    · rintro ⟨y, k, he, hno⟩
      obtain ⟨rfl, hjoins⟩ := ((hcopies.edges ..).1 he).resolve_left hno
      exact ⟨y, hjoins, hno⟩

/-- `x = new Foo; f = g; f(x, x)`, where only the second formal of `g(q, p)` has a local. -/
def unboundFormal : Problem where
  scene := {
    files := #[⟨⟨0⟩, "main", ⟨0⟩, ⟨0⟩, ∅, ∅⟩]
    classes := #[⟨⟨0⟩, "Main", none, ⟨0⟩, none, false, ∅⟩, ⟨⟨1⟩, "Foo", none, ⟨0⟩, none, false, ∅⟩]
    methods := #[
      plainMethod 0 "main" {
        locals := ((∅ : NameMap ValueId).insert "x" ⟨0⟩).insert "f" ⟨1⟩
        stmts := #[⟨0⟩, ⟨1⟩, ⟨2⟩] },
      { plainMethod 1 "g" {
          locals := (∅ : NameMap ValueId).insert "p" ⟨5⟩
          stmts := #[⟨3⟩] } with params := [.any, .any] }]
    stmts := #[⟨⟨0⟩, .assign ⟨0⟩ ⟨2⟩⟩, ⟨⟨0⟩, .assign ⟨1⟩ ⟨3⟩⟩, ⟨⟨0⟩, .call ⟨4⟩⟩,
      ⟨⟨1⟩, .assign ⟨5⟩ ⟨6⟩⟩]
    values := #[.var "x" (.object "Foo"), .var "f" .any, .new "Foo", .functionRef ⟨1⟩,
      .pointerCall ⟨1⟩ [⟨0⟩, ⟨0⟩], .var "p" .any, .parameter 1 .any] }

/-- The call `g(x, x)` of the scene with a formal that has no local. -/
def unboundFormalCall : StaticSite where
  id := ⟨0⟩
  stmt := some ⟨2⟩
  signature := ⟨"Main", "g"⟩
  args := some [.value ⟨0⟩, .value ⟨0⟩]
  target := none
  receiver := none
  caller := ⟨0⟩
  callee := ⟨1⟩
  origin := none

/-- With one argument bound before, the first argument goes to the second formal. -/
theorem Run.bindArguments_exact_unboundFormal :
    ∃ new s', bindArguments unboundFormal unboundFormalCall .empty ⟨1⟩ .empty 0 1
        (.initial unboundFormal.settings) = .ok new s' ∧
      Meets [.value ⟨0⟩, .value ⟨0⟩] [some ⟨5⟩] 0 (.value ⟨0⟩) ⟨5⟩ ∧
      ∃ x y, s'.NodeAt unboundFormal .empty (.value ⟨0⟩) x ∧
        s'.graph.nodeOf? unboundFormal.scene .empty ⟨5⟩ = .ok (some y) ∧
        s'.graph.Edge x y .copy ∧ x ∈ s'.retrigger := by
  obtain ⟨new, s', h, -⟩ := exists_of_endsWith
    (r := bindArguments unboundFormal unboundFormalCall .empty ⟨1⟩ .empty 0 1
      (.initial unboundFormal.settings)) (q := fun _ _ => true) (by decide +kernel)
  have hmeets : Meets [.value ⟨0⟩, .value ⟨0⟩] [some ⟨5⟩] 0 (.value ⟨0⟩) ⟨5⟩ :=
    ⟨rfl, rfl, by simp⟩
  have hformals : unboundFormal.scene.parameterLocals ⟨1⟩ = .ok #[none, some ⟨5⟩] := rfl
  obtain ⟨hbinds, -, -, hnew, hwoken⟩ :=
    bindArguments_exact (.empty unboundFormal.scene) rfl hformals h
  obtain ⟨x, y, hx, hy, hedge⟩ := hbinds 0 _ _ hmeets ⟨_, rfl, rfl⟩
  have hfresh : ¬ (State.initial unboundFormal.settings).graph.Edge x y .copy := by
    rintro ⟨e, he, -⟩
    simp [State.initial] at he
  exact ⟨new, s', h, hmeets, x, y, hx, hy, hedge,
    (hwoken x).2 (.inr ((hnew x).2 ⟨y, .copy, hedge, hfresh⟩))⟩

/-- A formal without a local ends the binding: the second argument can carry pointers and the
second formal has a local, but no edge is added. -/
theorem Run.bindArguments_stops :
    (∃ formals, unboundFormal.scene.parameterLocals ⟨1⟩ = .ok formals ∧
      formals[1]? = some (some ⟨5⟩)) ∧
    unboundFormalCall.args = some [.value ⟨0⟩, .value ⟨0⟩] ∧
    (CallArg.value ⟨0⟩).Carries unboundFormal.scene ∧
    bindArguments unboundFormal unboundFormalCall .empty ⟨1⟩ .empty 0 0
      (.initial unboundFormal.settings) = .ok [] (.initial unboundFormal.settings) :=
  ⟨⟨_, rfl, rfl⟩, rfl, ⟨_, rfl, rfl⟩, rfl⟩

end PointsTo
