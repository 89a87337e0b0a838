import PointsTo.Proofs.Analysis.Reachable

/-! The states that an analysis passes through, also in the midst of its parts, and the calls that it
makes on its way. -/
namespace PointsTo

namespace State

variable {p : Problem} {w : Phase} {s t u : State}

/-- One step of an analysis: a turn of one of its phases, a solution, or the count of a round. -/
inductive Passage (p : Problem) (s : State) : State → Prop where
  | turn {w : Phase} {t : State} : s.Turn p w t → Passage p s t
  | solution {found : Solution} {t : State} : s.Settles p found t → Passage p s t
  | round : Passage p s { s with rounds := s.rounds + 1 }

/-- Any number of steps of an analysis. -/
abbrev LeadsTo (p : Problem) : State → State → Prop := Relation.ReflTransGen (Passage p)

theorem Passage.sane (h : s.Passage p t) (hs : s.Sane p) : t.Sane p := by
  cases h with
  | turn h => exact (h.sane hs).1
  | solution h => exact h.sound.toSane
  | round => exact ⟨hs.graph, hs.indexed, hs.sites, hs.contexts, { hs.recorded with }⟩

theorem Passage.retains (h : s.Passage p t) (hs : s.Sane p) : s.Retains p t := by
  cases h with
  | turn h => exact h.retains hs
  | solution h => exact h.retains hs
  | round => exact retains_rounds s _

theorem Passage.precedes (h : s.Passage p t) (hs : s.Sane p) : s.Precedes t := by
  cases h with
  | turn h => exact Turns.precedes (.single h) hs
  | solution h => exact h.precedes
  | round => exact precedes_rounds s _

theorem LeadsTo.sane (h : s.LeadsTo p t) (hs : s.Sane p) : t.Sane p := by
  induction h with
  | refl => exact hs
  | tail _ h ih => exact h.sane ih

theorem LeadsTo.retains (h : s.LeadsTo p t) (hs : s.Sane p) : s.Retains p t := by
  induction h with
  | refl => exact .refl s
  | tail h h' ih => exact ih.trans (h'.retains (LeadsTo.sane h hs))

theorem LeadsTo.precedes (h : s.LeadsTo p t) (hs : s.Sane p) : s.Precedes t := by
  induction h with
  | refl => exact .refl s
  | tail h h' ih => exact ih.trans (h'.precedes (LeadsTo.sane h hs))

theorem Turns.leadsTo (h : s.Turns p w t) : s.LeadsTo p t :=
  Relation.ReflTransGen.mono (fun _ _ => .turn) s t h

section Registers

variable {n : NodeId} {d : SiteId × ContextId}

theorem registers_of_mapPointer {g : FlowGraph} {m : NodeId} {f : PointerInfo → PointerInfo}
    (hf : ∀ i e, e ∈ i.calls → e ∈ (f i).calls) (h : g.Registers n d) :
    (g.modifyNode m (·.mapPointer f)).Registers n d := by
  rw [registers_iff_attaches] at h ⊢
  obtain ⟨a, info, ha, hinfo, hd⟩ := h
  have hat := FlowGraph.at_modifyNode (m := m) (f := (·.mapPointer f)).2 ⟨a, ha, rfl⟩
  split at hat
  · exact ⟨_, f info, hat, by rw [Node.pointer?_mapPointer, hinfo]; rfl, hf info d hd⟩
  · exact ⟨a, info, hat, hinfo, hd⟩

theorem Step.keeps_registers (h : s.Step p w t) (hd : s.graph.Registers n d) :
    t.graph.Registers n d := by
  cases h with
  | records h => cases h <;> exact hd
  | nodes h => exact h.toAdds.registers_iff.2 hd
  | attach hf => exact registers_of_mapPointer (fun i e he => (hf i e).2 (.inl he)) hd
  | mark hf => exact registers_of_mapPointer (fun i e he => hf i ▸ he) hd
  | edge | address | update | calls => exact hd

theorem Passage.keeps_registers (h : s.Passage p t) (hd : s.graph.Registers n d) :
    t.graph.Registers n d := by
  cases h with
  | turn h =>
    cases h with
    | step h => exact h.keeps_registers hd
    | _ => exact hd
  | solution h => exact h.graph.registers_iff.2 hd
  | round => exact hd

/-- A call stays attached to its node. -/
theorem LeadsTo.keeps_registers (h : s.LeadsTo p t) (hd : s.graph.Registers n d) :
    t.graph.Registers n d := by
  induction h with
  | refl => exact hd
  | tail _ h ih => exact h.keeps_registers ih

end Registers

/-- The calls that models make up are not taken back. -/
theorem LeadsTo.synthetic (h : s.LeadsTo p t) : ∀ r ∈ s.synthetic, r ∈ t.synthetic := by
  induction h with
  | refl => exact fun _ hr => hr
  | tail _ h ih =>
    refine fun r hr => ?_
    have hr := ih r hr
    cases h with
    | turn h =>
      cases h with
      | step h =>
        cases h with
        | records h =>
          cases h with
          | synthetic => exact .tail _ hr
          | _ => exact hr
        | _ => exact hr
      | _ => exact hr
    | solution h =>
      rw [h.rest]
      exact hr
    | round => exact hr

end State

namespace Part
open State

variable {p : Problem} {s t : State} {α : Type}

/-- What a part of an analysis takes from the agenda to instantiate it. -/
def takes : Part α → α → State → List Activation
  | drainOnce, some true, s => s.agenda.toList.take 1
  | _, _, _ => []

/-- Parts of an analysis are made of steps, and they instantiate what they take. -/
theorem leadsTo {part : Part α} {a : α} (hs : s.Sound p)
    (htakes : part.Takes (p.Within s)) (hrun : part.run p s = .ok a t) :
    s.LeadsTo p t ∧ (part.takes a s = [] ∧ t.instantiated = s.instantiated ∨
      ∃ b, part.takes a s = [b] ∧ b ∉ s.instantiated ∧
        t.instantiated = s.instantiated.insert b) := by
  have hserves := hs.toSane.serves
  cases part with
  | entryMethods =>
    have hsteps := (Run.walks_entryMethods (w := .dispatch) s hserves).1 hrun
    exact ⟨hsteps.turns.leadsTo, .inl ⟨rfl, hsteps.instantiated⟩⟩
  | addEntry m =>
    have hsteps := (Run.walks_addEntry (w := .dispatch) s hserves).1 hrun
    exact ⟨hsteps.turns.leadsTo, .inl ⟨rfl, hsteps.instantiated⟩⟩
  | beginRound =>
    cases hrun
    exact ⟨.single .round, .inl ⟨rfl, rfl⟩⟩
  | drainOnce =>
    have hdrained := (Run.ensures_drainOnce hs.toSane).1 hrun
    refine ⟨hdrained.turns.leadsTo, ?_⟩
    cases hdrained with
    | done => exact .inl ⟨rfl, rfl⟩
    | known => exact .inl ⟨rfl, rfl⟩
    | @new b agenda t hpop hnew hsteps =>
      refine .inr ⟨b, ?_, hnew, hsteps.instantiated⟩
      simp only [takes, Queue.toList_of_pop? hpop, List.take_succ_cons, List.take_zero]
  | link a =>
    have hsteps := ((Run.ensures_link hs.toSane).1 hrun).1
    exact ⟨hsteps.turns.leadsTo, .inl ⟨rfl, hsteps.instantiated⟩⟩
  | solve =>
    have hsettles := (Run.ensures_solve hs).1 hrun
    exact ⟨.single (.solution hsettles), .inl ⟨rfl, by rw [hsettles.rest]⟩⟩
  | receive n objects =>
    have hturns := ((Run.ensures_receive (w := .dispatch) (by decide) hs nofun htakes.2).1 hrun).1.turns
    exact ⟨hturns.leadsTo, .inl ⟨rfl, hturns.instantiated rfl⟩⟩
  | retry =>
    have hturns := ((Run.ensures_retry (w := .dispatch) (by decide) hs nofun).1 hrun).1.turns
    exact ⟨hturns.leadsTo, .inl ⟨rfl, hturns.instantiated rfl⟩⟩

end Part

namespace Problem
open State

variable {p : Problem} {s t : State}

theorem Reachable.leadsTo (h : p.Reachable s) : (State.initial p.settings).LeadsTo p s := by
  induction h with
  | initial => exact .refl
  | step part hreach htakes hrun ih => exact ih.trans (part.leadsTo hreach.sound htakes hrun).1

theorem sane_of_leadsTo (h : (State.initial p.settings).LeadsTo p s) : s.Sane p :=
  h.sane (between_initial p).toSane

end Problem

end PointsTo
