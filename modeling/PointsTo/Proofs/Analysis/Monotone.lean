import PointsTo.Proofs.Analysis.Reachable

/-! An analysis only grows: whatever it has found stays found, also if it fails later on, and all
that its sets ever hold are objects. -/
namespace PointsTo

namespace Problem

/-- One of the parts of an analysis takes the state `s` to `t`, with a result or with a failure. -/
def Advances (p : Problem) (s t : State) : Prop :=
  ∃ (α : Type) (part : Part α), (∃ a, part.run p s = .ok a t) ∨ ∃ e, part.run p s = .error e t

/-- Any number of parts take the state `s` to `t`. -/
abbrev Leads (p : Problem) : State → State → Prop := Relation.ReflTransGen p.Advances

variable {p : Problem} {s t : State}

theorem Advances.changes (h : p.Advances s t) (hs : s.Ordered p) : s.Changes p t := by
  obtain ⟨α, part, hrun⟩ := h
  have htakes : part.Takes (p.Sees ⟨False, False⟩ s) := by
    cases part with
    | addEntry => exact False.elim
    | link => exact ⟨False.elim, False.elim⟩
    | receive => exact ⟨False.elim, fun _ _ => False.elim⟩
    | _ => trivial
  have hout := part.watch htakes ⟨⟨hs, False.elim⟩, False.elim⟩
  rcases hrun with ⟨a, hrun⟩ | ⟨e, hrun⟩ <;> rw [hrun] at hout
  · cases hout with
    | ok _ hl => exact hl.1
  · cases hout with
    | error hl => exact hl.1

theorem Leads.changes (h : p.Leads s t) (hs : s.Ordered p) : s.Changes p t := by
  induction h with
  | refl => exact .refl
  | tail _ hstep ih => exact ih.trans (hstep.changes (ih.ordered hs))

theorem Reachable.leads (h : p.Reachable s) : p.Leads (.initial p.settings) s := by
  induction h with
  | initial => exact .refl
  | @step s t α a part _ _ hrun ih => exact ih.tail ⟨α, part, .inl ⟨a, hrun⟩⟩

theorem Visits.leads (h : p.Visits s) : p.Leads (.initial p.settings) s := by
  rcases h with h | ⟨e, r, α, part, hr, -, hrun⟩
  · exact h.leads
  · exact hr.leads.tail ⟨α, part, .inr ⟨e, hrun⟩⟩

/-- A run of an analysis is made of parts, and parts are made of changes that keep whatever was
found before and put objects only into sets. This is so for runs that fail, too. -/
theorem analyze_monotone (p : Problem) :
    (∀ fuel t, (p.analyze fuel = .ok () t ∨ ∃ e, p.analyze fuel = .error e t) →
      p.Leads (.initial p.settings) t) ∧
    (∀ s t, p.Leads (.initial p.settings) s → p.Leads s t →
      (State.initial p.settings).Changes p s ∧ s.Changes p t) ∧
    ∀ s t, (State.initial p.settings).Changes p s → s.Changes p t →
      s.Extends t ∧ ∀ n o, t.points.Has n o → t.graph.IsObject o := by
  have hinitial := State.ordered_initial p
  refine ⟨fun fuel t hrun => ?_, fun s t hs ht => ?_, fun s t hs ht => ⟨ht.extends, ?_⟩⟩
  · rcases hrun with hrun | ⟨e, hrun⟩
    · exact (reachable_of_analyze hrun).leads
    · exact (visits_of_analyze (.inr hrun)).leads
  · have hchanges := hs.changes hinitial
    exact ⟨hchanges, ht.changes (hchanges.ordered hinitial)⟩
  · exact (ht.ordered (hs.ordered hinitial)).points

end Problem

end PointsTo
