import PointsTo.Proofs.Analysis.Finished
import PointsTo.Proofs.Analysis.SafeRounds
import PointsTo.Proofs.Scene.Check

/-! The states that an analysis can come to. Whatever it looks up there exists. -/
namespace PointsTo

/-- What an analysis is made of, with the results. -/
inductive Part : Type → Type where
  | entryMethods : Part (List MethodId)
  | addEntry (m : MethodId) : Part Unit
  | beginRound : Part Unit
  | drainOnce : Part (Option Bool)
  | link (a : Activation) : Part Unit
  | solve : Part Solution
  | receive (n : NodeId) (objects : List NodeId) : Part (List NodeId)
  | retry : Part (List NodeId)

namespace Part

def run (p : Problem) {α : Type} : Part α → Run α
  | entryMethods => Run.entryMethods p
  | addEntry m => Run.addEntry p m
  | beginRound => modify fun s => { s with rounds := s.rounds + 1 }
  | drainOnce => Run.drainOnce p
  | link a => Run.link p a
  | solve => Run.solve p
  | receive n objects => Run.receive p n objects
  | retry => Run.retry p

variable (P : Positions) {α : Type}

/-- What holds of the positions that a part is given. -/
def Takes : Part α → Prop
  | addEntry m => P .method m
  | link a => Activation.Refs P a
  | receive n objects => P .node n ∧ ∀ o ∈ objects, P .node o
  | entryMethods | beginRound | drainOnce | solve | retry => True

/-- What holds of the positions in the result of a part. -/
def Gives : Part α → α → Prop
  | entryMethods, ms => ∀ m ∈ ms, P .method m
  | solve, found => ∀ r ∈ found.receivers, P .node r.1 ∧ ∀ o ∈ r.2, P .node o
  | addEntry _, _ | beginRound, _ | drainOnce, _ | link _, _ | receive _ _, _ | retry, _ => True

variable {P} {p : Problem} {s : State}

/-- Every part is made of changes that take nothing away, also where it fails. It comes upon nothing
that does not exist, if it is given what exists. -/
theorem watch {part : Part α} {w : Watch} (h : part.Takes (p.Sees w s)) :
    (State.watch p w).Safe s (part.run p) fun t a => part.Gives (p.Sees w t) a := by
  cases part with
  | entryMethods => exact Run.watch_entryMethods
  | addEntry m => exact Run.watch_addEntry h
  | beginRound => exact (Run.watch_modify .record rfl rfl fun _ hs => { hs with }).runs
  | drainOnce => exact Run.watch_drainOnce
  | link a => exact Run.watch_link h
  | solve =>
    refine Run.watch_solve.mono fun _ _ _ _ hfound r hr => ⟨fun h => (hfound h r hr).1, ?_⟩
    exact fun o ho h => (hfound h r hr).2 o ho
  | receive n objects => exact (Run.watch_receive h.1 h.2).runs
  | retry => exact Run.watch_retry.runs

/-- Where everything is asked for. -/
theorem safe {part : Part α} (h : part.Takes (p.Within s)) :
    (State.watch p ⟨True, True⟩).Safe s (part.run p) fun t a => part.Gives (p.Within t) a := by
  have hsees : ∀ t, p.Sees ⟨True, True⟩ t = p.Within t := fun t => by
    funext x r
    exact propext true_imp_iff
  have hwatch : part.Takes (p.Sees ⟨True, True⟩ s) → _ := watch
  simp only [hsees] at hwatch
  exact hwatch h

/-- No part wants for fuel. -/
theorem ensures_sound {part : Part α} (hs : s.Sound p) (h : part.Takes (p.Within s)) :
    Ensures (part.run p) s fun _ t => t.Sound p := by
  have hserves : s.Serves p ⟨.empty, none⟩ := ⟨hs.toSane, hs.contexts.has_empty, nofun⟩
  cases part with
  | entryMethods =>
    exact (Run.walks_entryMethods (w := .dispatch) s hserves).mono fun _ _ h => h.turns.sound hs
  | addEntry m =>
    exact (Run.walks_addEntry (w := .dispatch) s hserves).mono fun _ _ h => h.turns.sound hs
  | beginRound => exact ensures_modify { hs with recorded := { hs.recorded with } }
  | drainOnce => exact (Run.ensures_drainOnce hs.toSane).mono fun _ _ h => h.turns.sound hs
  | link a => exact (Run.ensures_link hs.toSane).mono fun _ _ h => h.1.turns.sound hs
  | solve => exact (Run.ensures_solve hs).mono fun _ _ h => h.sound
  | receive n objects =>
    refine (Run.ensures_receive (w := .dispatch) (by decide) hs nofun h.2).mono fun _ _ h => ?_
    exact h.1.turns.sound hs
  | retry =>
    exact (Run.ensures_retry (w := .dispatch) (by decide) hs nofun).mono fun _ _ h => h.1.turns.sound hs

end Part

namespace Run

/-- Dispatches the calls of some nodes on their new objects. -/
def receiveAll (p : Problem) (receivers : List (NodeId × List NodeId)) : Run Unit :=
  receivers.forM fun r => discard (receive p r.1 r.2)

/-- A round up to the `k`-th of the nodes with new objects, with those that are left. -/
def pause (p : Problem) (fuel k : Nat) : Run (Bool × List (NodeId × List NodeId)) := do
  modify fun s => { s with rounds := s.rounds + 1 }
  let reached ← expand p fuel
  let solution ← solve p
  receiveAll p (solution.receivers.take k)
  return (reached || solution.changed, solution.receivers.drop k)

/-- The rest of a round. -/
def finish (p : Problem) (busy : Bool) (receivers : List (NodeId × List NodeId)) : Run Bool := do
  receiveAll p receivers
  let _ ← retry p
  return busy || (← get).hasPending

theorem round_eq_pause {p : Problem} {fuel : Nat} (k : Nat) :
    round p fuel = pause p fuel k >>= fun r => finish p r.1 r.2 := by
  simp only [round, pause, finish, receiveAll, bind_assoc, pure_bind]
  refine bind_congr fun _ => bind_congr fun reached => bind_congr fun solution => ?_
  nth_rewrite 1 [← List.take_append_drop k solution.receivers]
  rw [List.forM_eq_forM, List.forM_append, bind_assoc]

end Run

namespace Problem

/-- The states between the parts of an analysis, in whatever order they come. -/
inductive Reachable (p : Problem) : State → Prop where
  | initial : Reachable p (.initial p.settings)
  | step {s t : State} {α : Type} {a : α} (part : Part α) : Reachable p s →
      part.Takes (p.Within s) → part.run p s = .ok a t → Reachable p t

/-- One of the parts fails with `e` and leaves the state `t`. -/
def Stops (p : Problem) (e : Failure) (t : State) : Prop :=
  ∃ (s : State) (α : Type) (part : Part α), p.Reachable s ∧ part.Takes (p.Within s) ∧
    part.run p s = .error e t

variable {p : Problem} {s t : State} {e : Failure} {fuel : Nat}

theorem Reachable.sound (h : p.Reachable s) : s.Sound p := by
  induction h with
  | initial => exact (State.between_initial p).toSound
  | step part _ htakes hrun ih => exact (part.ensures_sound ih htakes).1 hrun

theorem Reachable.holds (h : p.Reachable s) : (State.watch p ⟨True, True⟩).Holds s := by
  induction h with
  | initial => exact ⟨State.kept_initial p, fun _ => State.inRange_initial p⟩
  | step part _ htakes hrun ih =>
    have hout := part.safe htakes ih
    rw [hrun] at hout
    cases hout with
    | ok ht => exact ht

theorem Reachable.inRange (h : p.Reachable s) : s.InRange p := h.holds.2 trivial

theorem Stops.fails (h : p.Stops e t) : p.scene.Admits e ∧ t.InRange p := by
  obtain ⟨s, α, part, hs, htakes, hrun⟩ := h
  have hout := part.safe htakes hs.holds
  rw [hrun] at hout
  cases hout with
  | error _ he => exact he.2 trivial

/-- In a well-formed scene a part fails only with an error of the program. -/
theorem Stops.exists_error (h : p.Stops e t) (hp : p.scene.WellFormed) : ∃ e', e = .error e' := by
  cases e with
  | error e' => exact ⟨e', rfl⟩
  | outOfFuel =>
    obtain ⟨s, α, part, hs, htakes, hrun⟩ := h
    exact ((part.ensures_sound hs.sound htakes).2 hrun rfl).elim
  | fault f => exact absurd hp (h.fails.1.fault f rfl)

/-- The states that an analysis can be in, whether or not it goes on from there. -/
def Visits (p : Problem) (s : State) : Prop := p.Reachable s ∨ ∃ e, p.Stops e s

theorem Visits.inRange (h : p.Visits s) : s.InRange p := by
  rcases h with h | ⟨e, h⟩
  · exact h.inRange
  · exact h.fails.2

/-- Reachable states that the parts of an analysis do not leave. -/
structure Closed (p : Problem) where
  Holds : State → Prop
  reachable : ∀ {s}, Holds s → p.Reachable s
  step : ∀ {s t : State} {α : Type} {a : α} (part : Part α), Holds s →
    part.Takes (p.Within s) → part.run p s = .ok a t → Holds t

/-- All of them. -/
def everywhere (p : Problem) : p.Closed := ⟨p.Reachable, id, .step⟩

/-- That a run is made of parts: it leads through certain reachable states, and it fails where a part
does or where its own fuel is spent. -/
def parts (p : Problem) (S : p.Closed) : Guard Failure State where
  Holds := S.Holds
  Later := (State.guard p).Later
  Fails e t := p.Stops e t ∨ e = .outOfFuel ∧ p.Reachable t
  refl := (State.guard p).refl
  trans := (State.guard p).trans

variable {S : p.Closed}

theorem safe_part {α : Type} (part : Part α) (h : part.Takes (p.Within s)) :
    (p.parts S).Safe s (part.run p) fun t a => part.Gives (p.Within t) a := by
  intro hs
  have hreach := S.reachable hs
  have hout := part.safe h hreach.holds
  revert hout
  cases hrun : part.run p s with
  | ok a t =>
    rintro (⟨_, hl, hgives⟩ | _)
    exact .ok (S.step part hs h hrun) (hl.2 trivial) hgives
  | error e t =>
    rintro (_ | ⟨hl, _⟩)
    exact .error (hl.2 trivial) (.inl ⟨s, α, part, hreach, h, hrun⟩)

theorem safe_drainAgenda {changed : Bool} : (p.parts S).Runs s (Run.drainAgenda p fuel changed) := by
  induction fuel generalizing s changed with
  | zero => exact .throw fun hs => .inr ⟨rfl, S.reachable hs⟩
  | succ fuel ih =>
    rw [Run.drainAgenda_succ]
    refine .next (safe_part .drainOnce trivial) fun t new? _ => ?_
    cases new? with
    | none => exact .pure trivial
    | some new => exact ih

theorem safe_expand : (p.parts S).Runs s (Run.expand p fuel) := by
  refine .next safe_drainAgenda fun t changed _ => ?_
  cases changed with
  | false => exact .pure trivial
  | true =>
    refine .get_bind (.of_holds fun ht => .last (.forM fun u a hl ha => ?_))
    have ha := (S.reachable ht).inRange.links a (Array.mem_toList_iff.1 ha)
    exact safe_part (.link a) (ha.mono fun _ _ => State.within_later hl)

theorem safe_receivers {l : List (NodeId × List NodeId)}
    (h : ∀ r ∈ l, p.Within s .node r.1 ∧ ∀ o ∈ r.2, p.Within s .node o) :
    (p.parts S).Runs s (Run.receiveAll p l) := by
  refine .forM fun t r hl hr => .discard (safe_part (.receive r.1 r.2) ⟨?_, fun o ho => ?_⟩)
  · exact State.within_later hl (h r hr).1
  · exact State.within_later hl ((h r hr).2 o ho)

theorem safe_pause {k : Nat} : (p.parts S).Safe s (Run.pause p fuel k) fun t r =>
    ∀ x ∈ r.2, p.Within t .node x.1 ∧ ∀ o ∈ x.2, p.Within t .node o := by
  refine .next (safe_part .beginRound trivial) fun s₁ _ _ => ?_
  refine .next safe_expand fun s₂ reached _ => ?_
  refine .bind (safe_part .solve trivial) fun s₃ found _ hfound => ?_
  refine .next (safe_receivers fun r hr => hfound r (List.mem_of_mem_take hr)) fun s₄ _ hl => ?_
  refine .pure fun r hr => ?_
  obtain ⟨hn, ho⟩ := hfound r (List.mem_of_mem_drop hr)
  exact ⟨State.within_later hl hn, fun o hmem => State.within_later hl (ho o hmem)⟩

theorem safe_finish {busy : Bool} {l : List (NodeId × List NodeId)}
    (h : ∀ r ∈ l, p.Within s .node r.1 ∧ ∀ o ∈ r.2, p.Within s .node o) :
    (p.parts S).Runs s (Run.finish p busy l) :=
  .next (safe_receivers h) fun _ _ _ => .next (safe_part .retry trivial) fun _ _ _ =>
    .get_bind (.pure trivial)

theorem safe_round : (p.parts S).Runs s (Run.round p fuel) := by
  rw [Run.round_eq_pause 0]
  exact .bind safe_pause fun _ _ _ h => safe_finish h

theorem safe_rounds {work : Nat} : (p.parts S).Runs s (Run.rounds p work fuel) := by
  induction fuel generalizing s with
  | zero => exact .throw fun hs => .inr ⟨rfl, S.reachable hs⟩
  | succ fuel ih =>
    refine .next safe_round fun t again _ => ?_
    cases again with
    | true => exact ih
    | false => exact .pure trivial

theorem safe_entries : (p.parts S).Runs s (Run.entryMethods p >>= Run.addEntries p) := by
  refine .bind (safe_part .entryMethods trivial) fun t ms _ hms => .forM fun u m hl hm => ?_
  exact safe_part (.addEntry m) (State.within_later hl (hms m hm))

/-- An analysis is made of the parts. -/
theorem safe_analyze : (p.parts S).Runs s (Run.analyze p fuel) := by
  rw [Run.analyze, ← bind_assoc]
  exact .next safe_entries fun _ _ _ => safe_rounds

theorem holds_of_safe {α : Type} {m : Run α} {V : State → α → Prop} {a : α}
    (hm : (p.parts S).Safe s m V) (hs : S.Holds s) (h : m s = .ok a t) : S.Holds t ∧ V t a := by
  have hout := hm hs
  rw [h] at hout
  cases hout with
  | ok ht _ hv => exact ⟨ht, hv⟩

theorem reachable_of_start (h : p.start = .ok () s) : p.Reachable s :=
  (holds_of_safe (S := p.everywhere) safe_entries .initial h).1

theorem reachable_of_analyze (h : p.analyze fuel = .ok () s) : p.Reachable s :=
  (holds_of_safe (S := p.everywhere) safe_analyze .initial h).1

theorem fails_of_analyze (h : p.analyze fuel = .error e s) :
    p.Stops e s ∨ e = .outOfFuel ∧ p.Reachable s := by
  have hout : (p.parts p.everywhere).Outcome _ (fun _ _ => True) (p.analyze fuel) := safe_analyze .initial
  rw [h] at hout
  cases hout with
  | error _ he => exact he

theorem visits_of_analyze (h : p.analyze fuel = .ok () s ∨ p.analyze fuel = .error e s) :
    p.Visits s := by
  rcases h with h | h
  · exact .inl (reachable_of_analyze h)
  · exact (fails_of_analyze h).elim (fun hstops => .inr ⟨e, hstops⟩) fun hs => .inl hs.2

/-- In a well-formed scene each part of an analysis ends in every state that it can come to, if not
with a result then with an error of the program, and so does the analysis while its fuel lasts. All
positions that are stored on the way exist, and no context is found to be unknown. -/
theorem analyze_inRange (hp : p.scene.WellFormed) :
    (∀ s, p.Reachable s → s.InRange p ∧ ∀ (α : Type) (part : Part α), part.Takes (p.Within s) →
      (∃ a t, part.run p s = .ok a t ∧ p.Reachable t ∧ part.Gives (p.Within t) a) ∨
        ∃ e t, part.run p s = .error (.error e) t ∧ t.InRange p) ∧
    ∀ fuel, (∃ t, p.analyze fuel = .ok () t ∧ p.Reachable t) ∨
      (∃ e t, p.analyze fuel = .error (.error e) t ∧ t.InRange p) ∨
      ∃ t, p.analyze fuel = .error .outOfFuel t ∧ p.Reachable t := by
  refine ⟨fun s hs => ⟨hs.inRange, fun α part htakes => ?_⟩, fun fuel => ?_⟩
  · have hout := safe_part (S := p.everywhere) part htakes hs
    cases hrun : part.run p s with
    | ok a t =>
      rw [hrun] at hout
      cases hout with
      | ok ht _ hgives => exact .inl ⟨a, t, rfl, ht, hgives⟩
    | error e t =>
      have hstops : p.Stops e t := ⟨s, α, part, hs, htakes, hrun⟩
      obtain ⟨e', rfl⟩ := hstops.exists_error hp
      exact .inr ⟨e', t, rfl, hstops.fails.2⟩
  · have hout : (p.parts p.everywhere).Outcome _ (fun _ _ => True) (p.analyze fuel) := safe_analyze .initial
    generalize p.analyze fuel = r at hout ⊢
    cases hout with
    | ok ht => exact .inl ⟨_, rfl, ht⟩
    | error _ he =>
      rcases he with hstops | ⟨rfl, ht⟩
      · obtain ⟨e', rfl⟩ := hstops.exists_error hp
        exact .inr (.inl ⟨e', _, rfl, hstops.fails.2⟩)
      · exact .inr (.inr ⟨_, rfl, ht⟩)

/-- After three rounds the call `x.run()` can be given its receiver once more. -/
theorem analyze_inRange_storedFunction :
    storedFunction.scene.WellFormed ∧ ∃ s, storedFunction.analyze 3 = .ok () s ∧
      s.InRange storedFunction ∧
      ((∃ a t, (Part.receive ⟨1⟩ [⟨0⟩]).run storedFunction s = .ok a t ∧
        storedFunction.Reachable t ∧ (Part.receive ⟨1⟩ [⟨0⟩]).Gives (storedFunction.Within t) a) ∨
        ∃ e t, (Part.receive ⟨1⟩ [⟨0⟩]).run storedFunction s = .error (.error e) t ∧
          t.InRange storedFunction) := by
  have hp : storedFunction.scene.WellFormed := Scene.Ordered.wellFormed (by decide +kernel)
  obtain ⟨_, s, hrun, hsize⟩ := exists_of_endsWith (r := storedFunction.analyze 3)
    (q := fun _ s => decide (1 < s.graph.nodes.size)) (by decide +kernel)
  have hnodes : 1 < s.graph.nodes.size := by simpa using hsize
  obtain ⟨hstates, hends⟩ := analyze_inRange hp
  have hs : storedFunction.Reachable s := by
    rcases hends 3 with ⟨t, ht, hreach⟩ | ⟨e, t, ht, -⟩ | ⟨t, ht, -⟩ <;> rw [hrun] at ht
    · cases ht
      exact hreach
    · cases ht
    · cases ht
  refine ⟨hp, s, hrun, (hstates s hs).1, (hstates s hs).2 _ (.receive ⟨1⟩ [⟨0⟩]) ⟨hnodes, ?_⟩⟩
  exact List.forall_mem_singleton.2 (Nat.zero_lt_of_lt hnodes)

end Problem

end PointsTo
