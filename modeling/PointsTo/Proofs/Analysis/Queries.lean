import PointsTo.Proofs.Analysis.Reachable
import PointsTo.Proofs.Flow.Lookups

/-! What the values of a program point to, asked for by value. -/
namespace PointsTo

namespace State

variable {p : Problem} {s : State} {v : ValueId}

theorem mem_foldl_points (s : State) (l : List (ContextId × NodeId)) (set : Std.TreeSet NodeId)
    (o : NodeId) :
    o ∈ l.foldl (fun set i => (s.points.get i.2).toList.foldl (·.insert ·) set) set ↔
      o ∈ set ∨ ∃ i ∈ l, s.points.Has i.2 o := by
  induction l generalizing set with
  | nil => simp
  | cons i l ih =>
    rw [List.foldl_cons, ih, mem_foldl_insert, ObjectSet.mem_toList, or_assoc]
    simp [DiffTable.Has]

/-- An object is found through a node of the value. -/
theorem pointsTo_eq_ok {objects : List NodeId} (h : s.pointsTo p.scene v = .ok objects) :
    ∃ l, s.graph.nodesOf p.scene v = .ok l ∧
      ∀ o, o ∈ objects ↔ ∃ c n, (c, n) ∈ l ∧ s.points.Has n o := by
  unfold pointsTo at h
  cases hl : s.graph.nodesOf p.scene v with
  | error f => simp [hl, bind, Except.bind] at h
  | ok l =>
    simp only [hl, bind, Except.bind, pure, Except.pure, Except.ok.injEq] at h
    refine ⟨l, rfl, fun o => ?_⟩
    rw [← h, Std.TreeSet.mem_toList, mem_foldl_points]
    simp

theorem pointsTo_returns {l : List (ContextId × NodeId)}
    (h : s.graph.nodesOf p.scene v = .ok l) : ∃ objects, s.pointsTo p.scene v = .ok objects := by
  unfold pointsTo
  rw [h]
  exact ⟨_, rfl⟩

/-- A value that has its own nodes points to what any of them points to. -/
theorem pointsTo_iff (hs : s.Sane p) {a : Value} {p? : Option Place} (ha : p.scene.value v = .ok a)
    (hglobal : a.isGlobalObject = false) (hp : p.scene.place? v = .ok p?) :
    ∃ objects, s.pointsTo p.scene v = .ok objects ∧ ∀ o, o ∈ objects ↔
      ∃ c n, s.graph.nodeOf? p.scene c v = .ok (some n) ∧ s.points.Has n o := by
  obtain ⟨l, hl⟩ := s.graph.nodesOf_returns hp
  obtain ⟨objects, hobjects⟩ := pointsTo_returns hl
  obtain ⟨_, hl', hmem⟩ := pointsTo_eq_ok hobjects
  cases hl.symm.trans hl'
  refine ⟨objects, hobjects, fun o => (hmem o).trans ?_⟩
  constructor
  · rintro ⟨c, n, hn, ho⟩
    exact ⟨c, n, FlowGraph.nodeOf?_of_mem_nodesOf hs.graph ha hglobal hl hn, ho⟩
  · rintro ⟨c, n, hn, ho⟩
    obtain ⟨d, hd⟩ := FlowGraph.mem_nodesOf_of_nodeOf? hs.indexed ha hglobal hl hn
    exact ⟨d, n, hd, ho⟩

end State

/-- A value is found exactly if nothing has to be made for it. Its nodes under all contexts are
listed, and what it points to is what they point to, unless it stands for the global object. -/
theorem Problem.lookups_agree (p : Problem) :
    (∀ g, FlowGraph.Made p.scene g →
      (∀ c v n stmt, g.nodeOf? p.scene c v = .ok (some n) ↔
        ∃ g', Growing.value p.scene c v stmt g = .ok n g' ∧ g'.nodes.size = g.nodes.size) ∧
      ∀ v a p?, p.scene.value v = .ok a → p.scene.place? v = .ok p? →
        ∃ l, g.nodesOf p.scene v = .ok l ∧ ∀ n, (∃ c, (c, n) ∈ l) ↔
          a.isGlobalObject = false ∧ ∃ c, g.nodeOf? p.scene c v = .ok (some n)) ∧
    ∀ s, p.Reachable s → ∀ v a p?, p.scene.value v = .ok a → a.isGlobalObject = false →
      p.scene.place? v = .ok p? → ∃ objects, s.pointsTo p.scene v = .ok objects ∧ ∀ o, o ∈ objects ↔
        ∃ c n, s.graph.nodeOf? p.scene c v = .ok (some n) ∧ s.points.Has n o := by
  constructor
  · intro g hg
    have hsearchable := hg.searchable
    refine ⟨fun c v n stmt => FlowGraph.nodeOf?_iff_value hsearchable.consistent stmt, ?_⟩
    intro v a p? ha hp
    obtain ⟨l, hl⟩ := g.nodesOf_returns hp
    exact ⟨l, hl, fun n => hsearchable.mem_nodesOf_iff ha hl⟩
  · intro s hs v a p? ha hglobal hp
    exact State.pointsTo_iff hs.sound.toSane ha hglobal hp

/-- `globalThis = new Foo; x = globalThis; x.f = x; x = x.f`. -/
def ownGlobal : Problem where
  scene := {
    files := #[⟨⟨0⟩, "main", ⟨0⟩, ⟨0⟩, ∅, ∅⟩]
    classes := #[⟨⟨0⟩, "Main", none, ⟨0⟩, none, false, ∅⟩, ⟨⟨1⟩, "Foo", none, ⟨0⟩, none, false, ∅⟩]
    methods := #[
      plainMethod 0 "main" {
        locals := (∅ : NameMap ValueId).insert "x" ⟨1⟩
        stmts := #[⟨0⟩, ⟨1⟩, ⟨2⟩, ⟨3⟩] }]
    stmts := #[⟨⟨0⟩, .assign ⟨0⟩ ⟨2⟩⟩, ⟨⟨0⟩, .assign ⟨1⟩ ⟨0⟩⟩, ⟨⟨0⟩, .assign ⟨3⟩ ⟨1⟩⟩,
      ⟨⟨0⟩, .assign ⟨1⟩ ⟨4⟩⟩]
    values := #[.var Name.globalObject .any, .var "x" .any, .new "Foo", .field ⟨1⟩ ⟨"Foo", "f"⟩,
      .field ⟨1⟩ ⟨"Foo", "f"⟩] }

/-- Both references `x.f` have one node, which is listed for the second of them after it was made
for the first, and `x` points to the object that it gets from the global object. -/
theorem Problem.lookups_agree_ownGlobal :
    (∃ g l, FlowGraph.Made ownGlobal.scene g ∧ g.nodesOf ownGlobal.scene ⟨4⟩ = .ok l ∧
      (∃ c, (c, ⟨1⟩) ∈ l) ∧ ∃ g', Growing.value ownGlobal.scene .empty ⟨3⟩ none g = .ok ⟨1⟩ g' ∧
        g'.nodes.size = g.nodes.size) ∧
    ∃ s objects, ownGlobal.analyze 4 = .ok () s ∧
      s.pointsTo ownGlobal.scene ⟨1⟩ = .ok objects ∧ ⟨0⟩ ∈ objects := by
  obtain ⟨hgraphs, hstates⟩ := lookups_agree ownGlobal
  constructor
  · let m : Growing Unit := Growing.value ownGlobal.scene .empty ⟨3⟩ none >>= fun _ => pure ()
    obtain ⟨_, g, hrun, hfound⟩ := exists_of_endsWith (r := m {})
      (q := fun _ g => decide (g.nodeOf? ownGlobal.scene .empty ⟨3⟩ = .ok (some ⟨1⟩) ∧
        g.nodeOf? ownGlobal.scene .empty ⟨4⟩ = .ok (some ⟨1⟩))) (by decide +kernel)
    obtain ⟨hfirst, hsecond⟩ := of_decide_eq_true hfound
    have hmade : FlowGraph.Made ownGlobal.scene g :=
      ⟨m, .bind (.value ..) fun _ => .pure (), hrun⟩
    obtain ⟨hvalue, hlist⟩ := hgraphs g hmade
    obtain ⟨l, hl, hmem⟩ := hlist ⟨4⟩ _ _ rfl rfl
    exact ⟨g, l, hmade, hl, (hmem ⟨1⟩).2 ⟨rfl, .empty, hsecond⟩, (hvalue ..).1 hfirst⟩
  · obtain ⟨_, s, h, hs⟩ := exists_of_endsWith (r := ownGlobal.analyze 4)
      (q := fun _ s => decide (s.graph.nodeOf? ownGlobal.scene .empty ⟨1⟩ = .ok (some ⟨2⟩)) &&
        (s.points.get ⟨2⟩).contains ⟨0⟩) (by decide +kernel)
    obtain ⟨hn, ho⟩ := Bool.and_eq_true_iff.1 hs
    obtain ⟨objects, hobjects, hmem⟩ :=
      hstates s (reachable_of_analyze h) ⟨1⟩ _ _ rfl rfl rfl
    exact ⟨s, objects, h, hobjects, (hmem ⟨0⟩).2 ⟨.empty, ⟨2⟩, of_decide_eq_true hn, ho⟩⟩

/-- The variable `globalThis` has a node that points to the new object, but no node is listed for
it, and it seems to point to nothing. -/
theorem Problem.pointsTo_misses_globalObject :
    ∃ s n, ownGlobal.analyze 4 = .ok () s ∧
      s.graph.nodeOf? ownGlobal.scene .empty ⟨0⟩ = .ok (some n) ∧ s.points.Has n ⟨0⟩ ∧
      s.graph.nodesOf ownGlobal.scene ⟨0⟩ = .ok [] ∧ s.pointsTo ownGlobal.scene ⟨0⟩ = .ok [] := by
  obtain ⟨_, s, h, hs⟩ := exists_of_endsWith (r := ownGlobal.analyze 4)
    (q := fun _ s => (s.points.get ⟨1⟩).contains ⟨0⟩ &&
      decide (s.graph.nodeOf? ownGlobal.scene .empty ⟨0⟩ = .ok (some ⟨1⟩) ∧
        s.graph.nodesOf ownGlobal.scene ⟨0⟩ = .ok [] ∧
        s.pointsTo ownGlobal.scene ⟨0⟩ = .ok [])) (by decide +kernel)
  obtain ⟨ho, hs⟩ := Bool.and_eq_true_iff.1 hs
  obtain ⟨hn, hnodes, hobjects⟩ := of_decide_eq_true hs
  exact ⟨s, ⟨1⟩, h, hn, ho, hnodes, hobjects⟩

end PointsTo
