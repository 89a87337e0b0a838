import PointsTo.Proofs.Analysis.Finished

/-! What an analysis has achieved after any number of rounds is still there at its end. -/
namespace PointsTo

/-- The rounds of an analysis up to the `n`-th; the flag tells whether another one follows. -/
def Run.begin (p : Problem) (work : Nat) : (n : Nat) → Run Bool
  | 0 => do
    addEntries p (← entryMethods p)
    return true
  | n + 1 => do
    if ← begin p work n then round p work else return false

/-- What an analysis has come to after `n` rounds; the flag tells whether another one follows. -/
def Problem.after (p : Problem) (work n : Nat) : EStateM.Result Failure State Bool :=
  Run.begin p work n (State.initial p.settings)

/-- Where the objects were made that a value may hold. -/
def State.locationsOf (scene : Scene) (s : State) (v : ValueId) : Except Fault (List Location) := do
  (← s.pointsTo scene v).mapM fun n => return (← s.graph.node n).location

/-- The same for some values, at the end of an analysis. -/
def Problem.outcome (p : Problem) (fuel : Nat) (values : List ValueId) :
    Option (List (List Location)) :=
  match p.analyze fuel with
  | .ok _ s => values.mapM fun v => (s.locationsOf p.scene v).toOption
  | .error .. => none

namespace State

variable {p : Problem} {s : State} {c c' : ContextId} {a : CallArg} {v : ValueId} {o : NodeId}

/-- What an argument of a call points to under a context. -/
def PointsAt (p : Problem) (s : State) (c : ContextId) (a : CallArg) (o : NodeId) : Prop :=
  ∃ n, s.NodeAt p c a n ∧ s.points.Has n o

theorem NodeAt.unique {m n : NodeId} (hm : s.NodeAt p c a m) (hn : s.NodeAt p c a n) : m = n := by
  cases a with
  | value v => exact Option.some.inj (Except.ok.inj (hm.symm.trans hn))
  | node x => exact hm.symm.trans hn

/-- At the end of an analysis objects have flown wherever they can. -/
theorem Finished.pointsAt (h : s.Finished p) (hflows : s.Flows p c a c' v)
    (ho : s.PointsAt p c a o) : s.PointsAt p c' (.value v) o := by
  obtain ⟨x, y, hx, hy, hedge⟩ := hflows
  obtain ⟨n, hn, ho⟩ := ho
  cases hx.unique hn
  exact ⟨y, hy, h.copies hedge ho⟩

end State

namespace Problem

variable {p : Problem} {fuel work n : Nat} {again : Bool} {s s₀ : State}

theorem after_zero : p.after work 0 = .ok again s ↔ p.start = .ok () s ∧ again = true := by
  rw [after, Run.begin, ← bind_assoc, bind_eq_ok]
  constructor
  · rintro ⟨_, _, hstart, hpure⟩
    cases hpure
    exact ⟨hstart, rfl⟩
  · rintro ⟨hstart, rfl⟩
    exact ⟨(), s, hstart, rfl⟩

theorem after_succ : p.after work (n + 1) = .ok again s ↔
    (∃ s₁, p.after work n = .ok true s₁ ∧ Run.round p work s₁ = .ok again s) ∨
      p.after work n = .ok false s ∧ again = false := by
  rw [after, Run.begin, bind_eq_ok]
  constructor
  · rintro ⟨flag, s₁, h₁, hnext⟩
    cases flag with
    | true => exact .inl ⟨s₁, h₁, hnext⟩
    | false =>
      cases hnext
      exact .inr ⟨h₁, rfl⟩
  · rintro (⟨s₁, h₁, hround⟩ | ⟨h₁, rfl⟩)
    · exact ⟨true, s₁, h₁, hround⟩
    · exact ⟨false, s, h₁, rfl⟩

theorem between_of_after (h : p.after work n = .ok again s) : s.Between p := by
  induction n generalizing again s with
  | zero => exact between_of_start (after_zero.1 h).1
  | succ n ih =>
    rcases after_succ.1 h with ⟨s₁, h₁, hround⟩ | ⟨h₁, -⟩
    · exact ((Run.ensures_round (ih h₁)).1 hround).between
    · exact ih h₁

/-- The rounds that an analysis goes on with. -/
theorem rounds_succ_eq_ok {k : Nat} : Run.rounds p work (k + 1) s₀ = .ok () s ↔
    (∃ s₁, Run.round p work s₀ = .ok true s₁ ∧ Run.rounds p work k s₁ = .ok () s) ∨
      Run.round p work s₀ = .ok false s := by
  rw [Run.rounds, bind_eq_ok]
  constructor
  · rintro ⟨flag, s₁, h₁, hnext⟩
    cases flag with
    | true => exact .inl ⟨s₁, h₁, hnext⟩
    | false =>
      cases hnext
      exact .inr h₁
  · rintro (⟨s₁, h₁, hrest⟩ | h₁)
    · exact ⟨true, s₁, h₁, hrest⟩
    · exact ⟨false, s, h₁, rfl⟩

/-- After some rounds an analysis is left with the rounds that follow. -/
theorem rounds_of_after (h : p.analyze fuel = .ok () s) (hn : p.after fuel n = .ok true s₀) :
    ∃ k, fuel = n + (k + 1) ∧ Run.rounds p fuel (k + 1) s₀ = .ok () s := by
  induction n generalizing s₀ with
  | zero =>
    rw [analyze_of_start (after_zero.1 hn).1] at h
    cases fuel with
    | zero => cases h
    | succ k => exact ⟨k, by omega, h⟩
  | succ n ih =>
    obtain ⟨s₁, h₁, hround⟩ := (after_succ.1 hn).resolve_right nofun
    obtain ⟨k, hk, hrounds⟩ := ih h₁
    rcases rounds_succ_eq_ok.1 hrounds with ⟨s₂, h₂, hrest⟩ | h₂
    · cases hround.symm.trans h₂
      cases k with
      | zero => cases hrest
      | succ k => exact ⟨k, by omega, hrest⟩
    · cases hround.symm.trans h₂

/-- The end of an analysis is what it has come to after some number of rounds. -/
theorem after_of_rounds {k : Nat} (hn : p.after work n = .ok true s₀)
    (h : Run.rounds p work k s₀ = .ok () s) : ∃ n', p.after work n' = .ok false s := by
  induction k generalizing n s₀ with
  | zero => cases h
  | succ k ih =>
    rcases rounds_succ_eq_ok.1 h with ⟨s₁, h₁, hrest⟩ | h₁
    · exact ih (after_succ.2 (.inl ⟨s₀, hn, h₁⟩)) hrest
    · exact ⟨n + 1, after_succ.2 (.inl ⟨s₀, hn, h₁⟩)⟩

theorem after_of_analyze (h : p.analyze fuel = .ok () s) :
    ∃ n, p.after fuel n = .ok false s := by
  cases hstart : p.start with
  | ok u s₀ =>
    rw [analyze_of_start hstart] at h
    exact after_of_rounds (after_zero.2 ⟨hstart, rfl⟩) h
  | error e s₀ =>
    rw [analyze, Run.analyze, ← bind_assoc] at h
    simp only [start, bind, EStateM.bind] at h hstart
    rw [hstart] at h
    cases h

/-- What there is after some rounds is still there at the end. -/
theorem retains_of_after (h : p.analyze fuel = .ok () s) (hn : p.after fuel n = .ok again s₀) :
    s₀.Retains p s := by
  induction n generalizing again s₀ with
  | zero =>
    obtain ⟨hstart, rfl⟩ := after_zero.1 hn
    rw [analyze_of_start hstart] at h
    exact ((Run.ensures_rounds (between_of_start hstart)).1 h).2
  | succ n ih =>
    cases again with
    | true =>
      obtain ⟨k, -, hrounds⟩ := rounds_of_after h hn
      exact ((Run.ensures_rounds (between_of_after hn)).1 hrounds).2
    | false =>
      rcases after_succ.1 hn with ⟨s₁, h₁, hround⟩ | ⟨h₁, -⟩
      · obtain ⟨k, -, hrounds⟩ := rounds_of_after h h₁
        rcases rounds_succ_eq_ok.1 hrounds with ⟨s₂, h₂, -⟩ | h₂
        · cases hround.symm.trans h₂
        · cases hround.symm.trans h₂
          exact .refl s
      · exact ih h₁

/-- The round that follows on `n` rounds, and what there is after it is still there at the end. -/
theorem round_of_after (h : p.analyze fuel = .ok () s) (hn : p.after fuel n = .ok true s₀) :
    ∃ again s₁, Run.Completes p fuel s₀ again s₁ ∧ s₁.Retains p s := by
  obtain ⟨k, -, hrounds⟩ := rounds_of_after h hn
  have hround : ∃ again s₁, Run.round p fuel s₀ = .ok again s₁ := by
    rcases rounds_succ_eq_ok.1 hrounds with ⟨s₁, h₁, -⟩ | h₁
    · exact ⟨true, s₁, h₁⟩
    · exact ⟨false, s, h₁⟩
  obtain ⟨again, s₁, h₁⟩ := hround
  refine ⟨again, s₁, (Run.ensures_round (between_of_after hn)).1 h₁, ?_⟩
  exact retains_of_after h (after_succ.2 (.inl ⟨s₀, hn, h₁⟩))

end Problem

end PointsTo
