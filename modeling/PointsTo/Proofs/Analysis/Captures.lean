import PointsTo.Proofs.Analysis.Progress

/-! Where captured and imported variables are connected with their definitions. -/
namespace PointsTo

/-- The round after the `n`-th instantiates something. At the end of that, in `s₁`, it connects all
captured variables with the nodes of their definitions. -/
def Problem.LinksFrom (p : Problem) (work n : Nat) (s₁ : State) : Prop :=
  ∃ s₀, p.after work n = .ok true s₀ ∧
    Run.drainAgenda p work false { s₀ with rounds := s₀.rounds + 1 } = .ok true s₁

namespace State

variable {p : Problem} {s : State} {g : FlowGraph} {c : ContextId} {capture : Capture} {x o : NodeId}

theorem Instances.links (h : s.Instances p) {m : MethodId} (hm : (c, m) ∈ s.instantiated)
    (hcapture : capture ∈ (s.captures[m]?).getD []) : (c, m) ∈ s.links := by
  refine (h _ hm).linked ?_
  rw [Std.TreeMap.mem_iff_isSome_getElem?]
  cases hcaptures : s.captures[m]? with
  | none => simp [hcaptures] at hcapture
  | some _ => rfl

/-- At the end of an analysis a captured variable points to what its definition points to. -/
theorem Finished.captured (h : s.Finished p) (hlinked : s.Linked p g c capture)
    (hx : g.HasInstance p.scene capture.source x) (ho : s.points.Has x o) :
    s.PointsAt p c (.value capture.target) o := by
  obtain ⟨y, hy, hedge, -⟩ := hlinked x hx
  exact ⟨y, hy, h.copies hedge ho⟩

/-- At the end of an analysis a definition points to what is written to a captured variable. -/
theorem Finished.written (h : s.Finished p) (hlinked : s.Linked p g c capture)
    (hx : g.HasInstance p.scene capture.source x) (hwrites : capture.writes = true)
    (ho : s.PointsAt p c (.value capture.target) o) : s.points.Has x o := by
  obtain ⟨y, hy, -, hedge⟩ := hlinked x hx
  obtain ⟨z, hz, ho⟩ := ho
  cases NodeAt.unique (a := .value capture.target) hy hz
  exact h.copies (hedge hwrites) ho

end State

theorem Problem.LinksFrom.linked {p : Problem} {fuel n : Nat} {s₁ s : State}
    (h : p.analyze fuel = .ok () s) (hlinks : p.LinksFrom fuel n s₁) {a : Activation}
    (ha : a ∈ s₁.instantiated) {capture : Capture}
    (hcapture : capture ∈ (s₁.captures[a.2]?).getD []) : s.Linked p s₁.graph a.1 capture := by
  obtain ⟨s₀, hn, hdrain⟩ := hlinks
  obtain ⟨again, s₂, hround, hr⟩ := round_of_after h hn
  have hs₀ := (between_of_after hn).withRounds (s₀.rounds + 1)
  have hexpands := ((Run.ensures_drainAgenda hs₀.toSane).1 hdrain).1
  have hlink := (hexpands.instances hs₀.instances).links ha hcapture
  exact ((hround.links s₁ hdrain).2 a hlink capture hcapture).retains hr

/-- At the end of an analysis a captured variable of an instantiated method is connected with every
node of its definition that was there when variables were connected. -/
theorem Problem.analyze_captures {p : Problem} {fuel n : Nat} {s₁ s : State}
    (h : p.analyze fuel = .ok () s) (hlinks : p.LinksFrom fuel n s₁) {c : ContextId} {m : MethodId}
    (hm : (c, m) ∈ s₁.instantiated) {capture : Capture}
    (hcapture : capture ∈ (s₁.captures[m]?).getD []) {x : NodeId}
    (hx : s₁.graph.HasInstance p.scene capture.source x) :
    (∀ o, s.points.Has x o → s.PointsAt p c (.value capture.target) o) ∧
      (capture.writes = true → ∀ o, s.PointsAt p c (.value capture.target) o → s.points.Has x o) := by
  have hf := finished_of_analyze h
  have hlinked := hlinks.linked h hm hcapture
  exact ⟨fun o ho => hf.captured hlinked hx ho, fun hw o ho => hf.written hlinked hx hw ho⟩

/-- `h = f; x = h(); f(); inner()`, where `f` returns a new object and `inner` reads `x`. -/
def lateCapture (depth : Nat) : Problem where
  scene := {
    files := #[⟨⟨0⟩, "main", ⟨0⟩, ⟨0⟩, ∅, ∅⟩]
    classes := #[⟨⟨0⟩, "Main", none, ⟨0⟩, none, false,
        ((∅ : NameMap MethodId).insert "f" ⟨1⟩).insert "inner" ⟨2⟩⟩,
      ⟨⟨1⟩, "Foo", none, ⟨0⟩, none, false, ∅⟩]
    methods := #[
      plainMethod 0 "main" {
        locals := ((∅ : NameMap ValueId).insert "h" ⟨0⟩).insert "x" ⟨1⟩
        stmts := #[⟨0⟩, ⟨1⟩, ⟨2⟩, ⟨3⟩] },
      plainMethod 1 "f" {
        locals := (∅ : NameMap ValueId).insert "r" ⟨6⟩
        stmts := #[⟨4⟩, ⟨5⟩] },
      { plainMethod 2 "inner" {
          locals := (∅ : NameMap ValueId).insert "y" ⟨8⟩
          stmts := #[⟨6⟩] } with outer := some ⟨0⟩ }]
    stmts := #[⟨⟨0⟩, .assign ⟨0⟩ ⟨2⟩⟩, ⟨⟨0⟩, .assign ⟨1⟩ ⟨3⟩⟩, ⟨⟨0⟩, .call ⟨4⟩⟩, ⟨⟨0⟩, .call ⟨5⟩⟩,
      ⟨⟨1⟩, .assign ⟨6⟩ ⟨7⟩⟩, ⟨⟨1⟩, .ret ⟨6⟩⟩, ⟨⟨2⟩, .assign ⟨8⟩ ⟨9⟩⟩]
    values := #[.var "h" .any, .var "x" .any, .functionRef ⟨1⟩, .pointerCall ⟨0⟩ [],
      .staticCall ⟨"Main", "f"⟩ [], .staticCall ⟨"Main", "inner"⟩ [], .var "r" (.object "Foo"),
      .new "Foo", .var "y" .any, .var "x" .any] }
  settings := { depth := depth }

/-- The variable `x` as `inner` captures it. -/
def lateCapture.x : Capture := ⟨⟨0⟩, ⟨1⟩, ⟨9⟩, false⟩

/-- Whether a node is known to stand for the definition of a captured variable, and for which method
(a test). -/
def State.defines (p : Problem) (s : State) (a : Activation) (capture : Capture) (c : ContextId)
    (x : NodeId) : Bool :=
  s.instantiated.contains a && ((s.captures[a.2]?).getD []).contains capture &&
    match s.graph.nodesOf p.scene capture.source with
    | .ok instances => instances.contains (c, x)
    | .error _ => false

theorem State.hasInstance_of_defines {p : Problem} {s : State} {a : Activation} {capture : Capture}
    {c : ContextId} {x : NodeId} (h : s.defines p a capture c x = true) :
    a ∈ s.instantiated ∧ capture ∈ (s.captures[a.2]?).getD [] ∧
      s.graph.HasInstance p.scene capture.source x := by
  unfold defines at h
  simp only [Bool.and_eq_true] at h
  obtain ⟨⟨ha, hcapture⟩, hx⟩ := h
  refine ⟨Std.TreeSet.contains_iff_mem.1 ha, List.contains_iff_mem.1 hcapture, ?_⟩
  split at hx
  next instances hinstances => exact ⟨c, instances, hinstances, List.contains_iff_mem.1 hx⟩
  next => cases hx

/-- If contexts tell the two calls of `f` apart, `inner` reads what `f` returns. -/
theorem Problem.analyze_captures_lateCapture :
    ∃ s s₁ x, (lateCapture 1).analyze 4 = .ok () s ∧ (lateCapture 1).LinksFrom 4 1 s₁ ∧
      s₁.graph.HasInstance (lateCapture 1).scene lateCapture.x.source x ∧
      (∃ o, s.points.Has x o) ∧
      ∀ o, s.points.Has x o → s.PointsAt (lateCapture 1) ⟨2⟩ (.value lateCapture.x.target) o := by
  obtain ⟨again, s₀, hn, hs₀⟩ := exists_of_endsWith (r := (lateCapture 1).after 4 1)
    (q := fun again s => again &&
      endsWith (Run.drainAgenda (lateCapture 1) 4 false { s with rounds := s.rounds + 1 })
        fun again s₁ => again && s₁.defines (lateCapture 1) (⟨2⟩, ⟨2⟩) lateCapture.x .empty ⟨6⟩)
    (by decide +kernel)
  obtain ⟨_, s, h, hs⟩ := exists_of_endsWith (r := (lateCapture 1).analyze 4)
    (q := fun _ s => decide (s.points.Has ⟨6⟩ ⟨8⟩)) (by decide +kernel)
  rw [Bool.and_eq_true] at hs₀
  obtain ⟨rfl, hs₀⟩ := hs₀
  obtain ⟨again, s₁, hdrain, hs₁⟩ := exists_of_endsWith hs₀
  rw [Bool.and_eq_true] at hs₁
  obtain ⟨rfl, hs₁⟩ := hs₁
  obtain ⟨hm, hcapture, hx⟩ := State.hasInstance_of_defines hs₁
  exact ⟨s, s₁, ⟨6⟩, h, ⟨s₀, hn, hdrain⟩, hx, ⟨⟨8⟩, of_decide_eq_true hs⟩,
    (analyze_captures h ⟨s₀, hn, hdrain⟩ hm hcapture hx).1⟩

/-- If contexts do not tell the two calls of `f` apart, the node of `x` is made only when nothing is
left to instantiate, and `inner` does not read it. -/
theorem Problem.analyze_misses_capture :
    ∃ s x o, (lateCapture 0).analyze 4 = .ok () s ∧ (.empty, ⟨2⟩) ∈ s.instantiated ∧
      lateCapture.x ∈ (s.captures[(⟨2⟩ : MethodId)]?).getD [] ∧
      s.graph.HasInstance (lateCapture 0).scene lateCapture.x.source x ∧ s.points.Has x o ∧
      ¬ s.PointsAt (lateCapture 0) .empty (.value lateCapture.x.target) o := by
  obtain ⟨_, s, h, hs⟩ := exists_of_endsWith (r := (lateCapture 0).analyze 4)
    (q := fun _ s => s.defines (lateCapture 0) (.empty, ⟨2⟩) lateCapture.x .empty ⟨6⟩ &&
      decide (s.points.Has ⟨6⟩ ⟨2⟩) &&
      (s.graph.nodeOf? (lateCapture 0).scene .empty lateCapture.x.target).toOption.join.all
        fun y => !decide (s.points.Has y ⟨2⟩)) (by decide +kernel)
  simp only [Bool.and_eq_true, decide_eq_true_eq] at hs
  obtain ⟨⟨hs, ho⟩, hy⟩ := hs
  obtain ⟨hm, hcapture, hx⟩ := State.hasInstance_of_defines hs
  refine ⟨s, ⟨6⟩, ⟨2⟩, h, hm, hcapture, hx, ho, ?_⟩
  rintro ⟨z, hz, hmissed⟩
  rw [show s.graph.nodeOf? _ _ _ = _ from hz] at hy
  simp [Except.toOption, hmissed] at hy

/-- So `y` holds more where contexts tell the calls apart. -/
theorem Problem.outcome_not_refined :
    (lateCapture 0).outcome 4 [⟨8⟩] = some [[]] ∧
    (lateCapture 1).outcome 4 [⟨8⟩] = some [[.value ⟨7⟩]] := by
  decide +kernel

end PointsTo
