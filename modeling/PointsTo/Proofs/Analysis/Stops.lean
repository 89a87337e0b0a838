import PointsTo.Proofs.Analysis.Agenda

/-! An analysis comes to an end unless its flow graph or its call sites grow without bound. -/
namespace PointsTo

namespace Extent

variable {p : Problem} {e e' : Extent}

theorem HasFinding.mono {f : Finding} (hf : e.HasFinding p f) (h : e ≤ e') :
    e'.HasFinding p f := by
  cases f with
  | instantiated a => exact HasActivation.mono hf h
  | points n o => exact ⟨lt_of_lt_of_le hf.1 h.1, lt_of_lt_of_le hf.2 h.1⟩
  | resolved d => exact HasDispatch.mono hf h
  | fieldDispatched d => exact HasDispatch.mono hf h

theorem finite_dispatches (e : Extent) : {d | e.HasDispatch d}.Finite := by
  apply ((finite_refs e.sites).prod ((finite_refs e.contexts).prod (finite_refs e.nodes))).subset
  rintro ⟨i, c, o⟩ ⟨⟨hi, hc⟩, ho⟩
  exact ⟨hi, hc, ho⟩

/-- There is only so much to find out about what there is. -/
theorem finite_findings (p : Problem) (e : Extent) : {f | e.HasFinding p f}.Finite := by
  have hactivations : {a | e.HasActivation p a}.Finite :=
    (finite_refs e.contexts).prod (finite_refs p.scene.methods.size)
  have hpairs : {x : NodeId × NodeId | x.1.index < e.nodes ∧ x.2.index < e.nodes}.Finite :=
    (finite_refs e.nodes).prod (finite_refs e.nodes)
  have hdispatches := e.finite_dispatches
  apply ((((hactivations.image .instantiated).union (hpairs.image fun x => .points x.1 x.2)).union
    (hdispatches.image .resolved)).union (hdispatches.image .fieldDispatched)).subset
  intro f hf
  cases f with
  | instantiated a => exact .inl (.inl (.inl ⟨a, hf, rfl⟩))
  | points n o => exact .inl (.inl (.inr ⟨(n, o), hf, rfl⟩))
  | resolved d => exact .inl (.inr ⟨d, hf, rfl⟩)
  | fieldDispatched d => exact .inr ⟨d, hf, rfl⟩

end Extent

namespace State

variable {p : Problem} {s s' : State} {bound : Nat}

/-- What has been found out. -/
def known (s : State) : Set Finding := {f | s.Holds f}

/-- Whether there are at most so many nodes and at most so many call sites. -/
def Fits (bound : Nat) (s : State) : Prop :=
  s.graph.nodes.size ≤ bound ∧ s.calls.sites.sites.size ≤ bound

theorem Fits.of_precedes (hs' : s'.Fits bound) (h : s.Precedes s') : s.Fits bound :=
  ⟨h.extent.1.trans hs'.1, h.extent.2.1.trans hs'.2⟩

theorem exists_extent_le (hp : p.settings.policy ≠ .object) (bound : Nat) :
    ∃ e : Extent, ∀ s : State, s.Sane p → s.Fits bound → s.extent ≤ e := by
  have hitems := Extent.finite_items (e := ⟨bound, bound, 0⟩) (fun _ hx => hx) fun _ => hp
  obtain ⟨contexts, hcontexts⟩ :=
    ContextTable.exists_contexts_size_le p.settings.depth hitems.toFinset.card
  refine ⟨⟨bound, bound, contexts⟩, fun s hs hfits => ⟨hfits.1, hfits.2, ?_⟩⟩
  apply hcontexts s.contexts hs.contexts
  rw [← Array.length_toList, ← List.toFinset_card_of_nodup s.contexts.nodup_items]
  apply Finset.card_le_card
  intro x hx
  have hx : x ∈ s.contexts.items := by simpa using hx
  rw [Set.Finite.mem_toFinset]
  have hitem := hs.recorded.items x hx
  cases x with
  | callSite site callee => exact ⟨lt_of_lt_of_le hitem.1 hfits.2, hitem.2⟩
  | object => exact hitem
  | function => exact hitem

theorem exists_known_le (hp : p.settings.policy ≠ .object) (bound : Nat) :
    ∃ most, ∀ s : State, s.Sound p → s.Fits bound → s.known.Finite ∧ s.known.ncard ≤ most := by
  obtain ⟨e, he⟩ := exists_extent_le hp bound
  have hfinite := Extent.finite_findings p e
  refine ⟨{f | e.HasFinding p f}.ncard, fun s hs hfits => ?_⟩
  have hsub : s.known ⊆ {f | e.HasFinding p f} :=
    fun f hf => (hs.hasFinding hf).mono (he s hs.toSane hfits)
  exact ⟨hfinite.subset hsub, Set.ncard_le_ncard hsub hfinite⟩

theorem Learns.ncard_lt (h : s.Learns s') (hle : s.Precedes s') (hfinite : s'.known.Finite) :
    s.known.ncard < s'.known.ncard := by
  obtain ⟨f, hf, hnew⟩ := h
  apply Set.ncard_lt_ncard _ hfinite
  exact ⟨hle.holds, fun hsub => hnew (hsub hf)⟩

end State

namespace Run
open State

section Fuel

variable {p : Problem} {s : State}

theorem outlasts_round {work more : Nat} : Outlasts s (round p work) (round p (work + more)) := by
  apply Outlasts.bind (.refl _ _)
  intro _ s₁ _
  exact Outlasts.bind outlasts_expand fun _ _ _ => .refl _ _

theorem outlasts_rounds {work fuel moreWork more : Nat} :
    Outlasts s (rounds p work fuel) (rounds p (work + moreWork) (fuel + more)) := by
  induction fuel generalizing s with
  | zero => exact fun hend => absurd rfl (hend s)
  | succ fuel ih =>
    rw [Nat.succ_add]
    apply Outlasts.bind outlasts_round
    intro again s₁ _
    cases again with
    | true => exact ih
    | false => exact .refl _ _

end Fuel

section Ends

variable {p : Problem} {bound most : Nat}
  (hmost : ∀ s : State, s.Sound p → s.Fits bound → s.known.Finite ∧ s.known.ncard ≤ most)

include hmost

/-- While nodes and call sites are bounded, some fuel suffices for all rounds, since each of them but
the last one learns something. -/
theorem not_forall_rounds_outOfFuel {s : State} (past least : Nat) (hs : s.Between p)
    (hreach : p.Reachable s) :
    ¬ ∀ fuel ≥ least, ∃ s', rounds p fuel (fuel - past) s = .error .outOfFuel s' ∧
      s'.Fits bound := by
  intro hout
  have hrounds : ∀ fuel > past, rounds p fuel (fuel - past) s =
      (round p fuel >>= fun again => if again then rounds p fuel (fuel - (past + 1)) else pure ())
        s := by
    intro fuel hfuel
    rw [show fuel - past = fuel - (past + 1) + 1 by omega, rounds]
  -- with enough fuel, the agenda of this round is worked off
  obtain ⟨work, hwork, hends⟩ : ∃ work ≥ max least (past + 1), ∀ s',
      drainAgenda p work false { s with rounds := s.rounds + 1 } ≠ .error .outOfFuel s' := by
    have hbegun : p.Reachable { s with rounds := s.rounds + 1 } := hreach.step .beginRound trivial rfl
    obtain ⟨enough, hends⟩ := hbegun.exists_drainAgenda false
    refine ⟨enough + max least (past + 1), Nat.le_add_left .., fun s' => ?_⟩
    rw [outlasts_drainAgenda hends]
    exact hends s'
  have hround : EnsuresOr _ (round p work) s _ := ensures_round hs
  obtain ⟨s', h', hfits⟩ := hout work (by omega)
  rw [hrounds work (by omega)] at h'
  cases hrun : round p work s with
  | error e s₁ =>
    rw [bind_error hrun] at h'
    cases h'
    exact hends s' (hround.2 hrun rfl)
  | ok again s₁ =>
    have hcomplete : Completes p work s again s₁ := hround.1 hrun
    have hs₁ := hcomplete.between
    simp only [bind, EStateM.bind, hrun] at h'
    cases again with
    | false => cases h'
    | true =>
      -- from here on, all runs with at least that fuel take the same way
      have hnext : ∀ fuel ≥ work, rounds p fuel (fuel - past) s =
          rounds p fuel (fuel - (past + 1)) s₁ := by
        intro fuel hfuel
        have hsame : round p fuel s = .ok true s₁ := by
          rw [← hrun, show fuel = work + (fuel - work) by omega]
          exact outlasts_round (by simp [hrun])
        rw [hrounds fuel (by omega)]
        simp only [bind, EStateM.bind, hsame, if_true]
      have hlater := (ensures_rounds hs₁).2 h' rfl
      obtain ⟨hfinite, hle⟩ := hmost s₁ hs₁.toSound (hfits.of_precedes hlater)
      have hlt := (hcomplete.learns rfl).ncard_lt hcomplete.precedes hfinite
      have hfewer : most - s₁.known.ncard < most - s.known.ncard := by omega
      have hreach₁ : p.Reachable s₁ :=
        (Problem.holds_of_safe (S := p.everywhere) Problem.safe_round hreach hrun).1
      apply not_forall_rounds_outOfFuel (past + 1) work hs₁ hreach₁
      intro fuel hfuel
      rw [← hnext fuel hfuel]
      exact hout fuel (by omega)
termination_by most - s.known.ncard

end Ends

end Run

namespace Problem

variable {p : Problem}

/-- More fuel does not change how an analysis ends. -/
theorem analyze_add {fuel : Nat} (h : ∀ s, p.analyze fuel ≠ .error .outOfFuel s) (more : Nat) :
    p.analyze (fuel + more) = p.analyze fuel := by
  rcases p.analyze_cases with ⟨s₀, -, heq⟩ | ⟨e, s₀, -, heq⟩
  · simp only [heq] at h ⊢
    exact Run.outlasts_rounds h
  · rw [heq, heq]

/-- Finitely many runs are bounded. -/
theorem exists_fits (p : Problem) (fuel : Nat) : ∃ bound, ∀ less < fuel, ∀ s,
    p.analyze less = .error .outOfFuel s → s.Fits bound := by
  induction fuel with
  | zero => exact ⟨0, fun less hless => absurd hless (Nat.not_lt_zero less)⟩
  | succ fuel ih =>
    obtain ⟨bound, hbound⟩ := ih
    by_cases h : ∃ s, p.analyze fuel = .error .outOfFuel s
    · obtain ⟨s, hs⟩ := h
      refine ⟨bound + s.graph.nodes.size + s.calls.sites.sites.size, fun less hless s' hs' => ?_⟩
      rcases Nat.lt_succ_iff_lt_or_eq.1 hless with hless | rfl
      · have hfits := hbound less hless s' hs'
        exact ⟨by have := hfits.1; omega, by have := hfits.2; omega⟩
      · cases hs.symm.trans hs'
        exact ⟨by omega, by omega⟩
    · refine ⟨bound, fun less hless s' hs' => ?_⟩
      rcases Nat.lt_succ_iff_lt_or_eq.1 hless with hless | rfl
      · exact hbound less hless s' hs'
      · exact absurd ⟨s', hs'⟩ h

/-- Unless contexts are made of objects, an analysis comes to an end if and only if the flow nodes
and call sites that its unfinished runs make are bounded in number. -/
theorem analyze_ends_iff (hp : p.settings.policy ≠ .object) :
    (∃ fuel, ∀ s, p.analyze fuel ≠ .error .outOfFuel s) ↔
      ∃ bound, ∀ fuel s, p.analyze fuel = .error .outOfFuel s →
        s.graph.nodes.size ≤ bound ∧ s.calls.sites.sites.size ≤ bound := by
  constructor
  · rintro ⟨fuel, hends⟩
    obtain ⟨bound, hbound⟩ := p.exists_fits fuel
    refine ⟨bound, fun less s hs => hbound less ?_ s hs⟩
    by_contra! hle
    rw [show less = fuel + (less - fuel) by omega, analyze_add hends] at hs
    exact hends s hs
  · rintro ⟨bound, hbound⟩
    by_contra! hout
    obtain ⟨most, hmost⟩ := State.exists_known_le hp bound
    rcases p.analyze_cases with ⟨s₀, hstart, heq⟩ | ⟨e, s₀, he, heq⟩
    · apply Run.not_forall_rounds_outOfFuel hmost 0 0 (between_of_start hstart)
        (reachable_of_start hstart)
      intro fuel _
      obtain ⟨s, hs⟩ := hout fuel
      refine ⟨s, ?_, hbound fuel s hs⟩
      rw [Nat.sub_zero, ← heq, hs]
    · obtain ⟨s, hs⟩ := hout 0
      rw [heq] at hs
      cases hs
      exact he rfl

/-- Three rounds are enough for a function that is stored in a field. -/
theorem analyze_ends_iff_storedFunction :
    storedFunction.settings.policy ≠ .object ∧ ∃ bound, ∀ fuel s,
      storedFunction.analyze fuel = .error .outOfFuel s →
        s.graph.nodes.size ≤ bound ∧ s.calls.sites.sites.size ≤ bound := by
  refine ⟨by decide, (analyze_ends_iff (by decide)).1 ⟨3, fun s hs => ?_⟩⟩
  obtain ⟨_, s', h, -⟩ := exists_of_endsWith (r := storedFunction.analyze 3)
    (q := fun _ _ => true) (by decide +kernel)
  cases h.symm.trans hs

end Problem

end PointsTo
