import Mathlib.Data.Set.Card
import PointsTo.Proofs.Analysis.Captures
import PointsTo.Proofs.Analysis.Grounded
import PointsTo.Proofs.Analysis.Passages

/-! The work on the agenda comes to an end, and all that was ever put on it is instantiated once. -/
namespace PointsTo

/-- Unless contexts are made of objects, call sites and methods bound what they are made of. -/
theorem Extent.finite_items {p : Problem} {e : Extent} {P : ContextItem → Prop}
    (hP : ∀ x, P x → e.HasItem p x) (hobjects : ∀ o, ¬ P (.object o)) : {x | P x}.Finite := by
  have hmethods := finite_refs (t := .method) p.scene.methods.size
  apply (((finite_refs e.sites).prod hmethods).image (fun x => .callSite x.1 x.2)).union
    (hmethods.image .function) |>.subset
  intro x hx
  cases x with
  | callSite site callee => exact .inl ⟨(site, callee), hP _ hx, rfl⟩
  | object o => exact absurd hx (hobjects o)
  | function m => exact .inr ⟨m, hP _ hx, rfl⟩

namespace State

variable {p : Problem} {w : Phase} {s t : State} {x : ContextItem} {m : MethodId}
  {summary : Summary}

/-- The methods that can still be summarized. -/
def unsurveyed (p : Problem) (s : State) : Set MethodId := {m | p.HasBody m ∧ m ∉ s.summaries}

/-- What contexts are made of, or can be while no other method is summarized. -/
def Uses (p : Problem) (s : State) (x : ContextItem) : Prop :=
  x ∈ s.contexts.items ∨ s.Introduces p x

/-- The methods that are not instantiated under contexts that there can be. -/
def vacant (p : Problem) (s : State) : Set (List ContextItem × MethodId) :=
  {a | (a.1.length ≤ p.settings.depth ∧ ∀ x ∈ a.1, s.Uses p x) ∧ p.HasMethod a.2 ∧
    ∀ b ∈ s.instantiated, (s.contexts.itemsOf b.1, b.2) ≠ a}

theorem finite_unsurveyed (p : Problem) (s : State) : (s.unsurveyed p).Finite := by
  refine (finite_refs p.scene.methods.size).subset ?_
  rintro m ⟨⟨decl, hdecl, -⟩, -⟩
  exact Problem.hasMethod_of_method hdecl

theorem finite_uses (hs : s.InRange p) : {x | s.Uses p x}.Finite := by
  refine Set.Finite.union (s := {x | x ∈ s.contexts.items}) ?_
    (Extent.finite_items (p := p) (e := s.extent) (fun x hx => ?_) fun _ h => h)
  · simpa using List.finite_toSet s.contexts.items.toList
  cases x with
  | callSite i callee =>
    obtain ⟨⟨m, summary, hsummary, hi⟩, hcallee⟩ := hx
    exact ⟨(hs.summaries m summary hsummary).2.staticCalls i hi, hcallee⟩
  | object => exact hx.elim
  | function => exact hx

theorem finite_vacant (hs : s.InRange p) : (s.vacant p).Finite := by
  refine ((finite_lists (finite_uses hs) p.settings.depth).prod
    (finite_refs p.scene.methods.size)).subset ?_
  rintro a ⟨hitems, hm, -⟩
  exact ⟨hitems, hm⟩

theorem Introduces.mono (h : s.Introduces p x) (hst : ∀ i, s.Stated i → t.Stated i) :
    t.Introduces p x := by
  cases x with
  | callSite i callee => exact ⟨hst i h.1, h.2⟩
  | object => exact h
  | function => exact h

theorem Step.items (h : s.Step p .expansion t) (hx : x ∈ t.contexts.items) : s.Uses p x := by
  cases h with
  | records _ hintroduced => exact hintroduced rfl x hx
  | _ => exact .inl hx

/-- New contexts are made of calls that are stated and of methods. -/
theorem Steps.items (h : s.Steps p .expansion t) (hs : s.Sane p) (hx : x ∈ t.contexts.items) :
    x ∈ s.contexts.items ∨ t.Introduces p x := by
  induction h with
  | refl => exact .inl hx
  | @tail u t h hstep ih =>
    have hr := hstep.retains (Steps.sane h hs)
    rcases hstep.items hx with hx | hx
    · exact (ih hx).imp_right fun hx => hx.mono fun _ hi => hi.retains hr
    · exact .inr (hx.mono fun _ hi => hi.retains hr)

theorem Step.summarized (h : s.Step p w t) (hm : t.summaries[m]? = some summary) :
    s.summaries[m]? = some summary ∨ m ∈ s.unsurveyed p := by
  cases h with
  | records h =>
    cases h with
    | @summary k v hbody hnew =>
      by_cases hk : k = m
      · exact .inr (hk ▸ ⟨hbody, hnew⟩)
      · left
        simpa [Std.TreeMap.getElem?_insert, hk] using hm
    | _ => exact .inl hm
  | _ => exact .inl hm

/-- Every summary is an old one or that of a method that had none. -/
theorem Steps.summarized (h : s.Steps p w t) (hs : s.Sane p)
    (hm : t.summaries[m]? = some summary) :
    s.summaries[m]? = some summary ∨ m ∈ s.unsurveyed p := by
  induction h with
  | refl => exact .inl hm
  | @tail u t h hstep ih =>
    rcases hstep.summarized hm with hm | ⟨hbody, hnew⟩
    · exact ih hm
    · exact .inr ⟨hbody, fun hold => hnew ((Steps.retains h hs).mem_summaries hold)⟩

section New

variable {a : Activation} {agenda : Queue Activation}
  (h : State.Steps p .expansion { s with agenda, instantiated := s.instantiated.insert a } t)
  (hs : s.Sane p) (hpop : s.agenda.pop? = some (a, agenda)) (hnew : a ∉ s.instantiated)

include h hs hpop hnew

/-- What is instantiated is not vacant any more, and nothing becomes vacant. -/
theorem vacant_shrinks (hsame : ∀ i, t.Stated i → s.Stated i) :
    t.vacant p ⊆ s.vacant p ∧ ∃ b ∈ s.vacant p, b ∉ t.vacant p := by
  have hknown : s.extent.HasActivation p a :=
    hs.recorded.agenda a (by rw [Queue.toList_of_pop? hpop]; exact .head _)
  have htake : s.Turns p .expansion { s with agenda, instantiated := s.instantiated.insert a } :=
    .single (.take rfl hpop hnew)
  have hs₁ := (htake.sane_and_le hs).1
  have hext : s.contexts.Extends t.contexts := (h.retains hs₁).contexts
  -- contexts keep their items
  have hitems : ∀ b ∈ s.instantiated.insert a,
      s.contexts.Has b.1 ∧ t.contexts.itemsOf b.1 = s.contexts.itemsOf b.1 := by
    intro b hb
    have hb : s.contexts.Has b.1 := (hs₁.recorded.instantiated b hb).1
    exact ⟨hb, hext.itemsOf hs.contexts hb⟩
  have hmem : a ∈ s.instantiated.insert a := (mem_insert ..).2 (.inl rfl)
  have hinst : t.instantiated = s.instantiated.insert a := h.instantiated
  refine ⟨?_, (s.contexts.itemsOf a.1, a.2), ⟨⟨?_, ?_⟩, hknown.2, ?_⟩, ?_⟩
  · rintro b ⟨⟨hlen, huses⟩, hm, hvacant⟩
    refine ⟨⟨hlen, fun x hx => ?_⟩, hm, fun c hc => ?_⟩
    · rcases huses x hx with hx | hx
      · exact (h.items hs₁ hx).imp_right fun hx => hx.mono hsame
      · exact .inr (hx.mono hsame)
    · have hc : c ∈ s.instantiated.insert a := (mem_insert ..).2 (.inr hc)
      rw [← (hitems c hc).2]
      rw [hinst] at hvacant
      exact hvacant c hc
  · exact hs.contexts.length_itemsOf_le a.1
  · exact fun x hx => .inl (ContextTable.mem_items_of_itemsOf hx)
  · rintro b hb heq
    obtain ⟨hcontext, hmethod⟩ := Prod.ext_iff.1 heq
    have hcb := (hitems b ((mem_insert ..).2 (.inr hb))).1
    have hab : b = a := Prod.ext (hs.contexts.itemsOf_injective hcb hknown.1 hcontext) hmethod
    rw [hab] at hb
    exact hnew hb
  · rintro ⟨-, -, hvacant⟩
    rw [hinst] at hvacant
    exact hvacant a hmem (by rw [(hitems a hmem).2])

/-- Either another method has been summarized or the instantiation has filled a vacancy. -/
theorem rank_lt (hrange : s.InRange p) : (t.unsurveyed p).ncard < (s.unsurveyed p).ncard ∨
    (t.unsurveyed p).ncard = (s.unsurveyed p).ncard ∧ (t.vacant p).ncard < (s.vacant p).ncard := by
  have hs₁ := (Turns.sane_and_le (.single (.take (w := .expansion) rfl hpop hnew)) hs).1
  by_cases hsame : t.unsurveyed p = s.unsurveyed p
  · refine .inr ⟨by rw [hsame], ?_⟩
    refine Set.ncard_lt_ncard (Set.ssubset_iff_exists.2 ?_) (finite_vacant hrange)
    refine vacant_shrinks h hs hpop hnew ?_
    rintro i ⟨m, summary, hm, hi⟩
    refine ⟨m, summary, (h.summarized hs₁ hm).resolve_right fun hold => ?_, hi⟩
    have hold : m ∈ t.unsurveyed p := hsame ▸ hold
    exact hold.2 (Std.TreeMap.mem_iff_isSome_getElem?.2 (by simp [hm]))
  · refine .inl (Set.ncard_lt_ncard (ssubset_of_subset_of_ne ?_ hsame) (finite_unsurveyed p s))
    exact fun m hm => ⟨hm.1, fun hold => hm.2 ((h.retains hs₁).mem_summaries hold)⟩

end New

end State

namespace Run

section Fuel

variable {α β : Type} {p : Problem} {s : State} {m m' : Run α} {f f' : α → Run β}

theorem bind_error {e : Failure} {s' : State} (h : m s = .error e s') :
    (m >>= f) s = .error e s' := by
  simp only [Bind.bind, EStateM.bind, h]

/-- With the fuel of `m'` a computation ends as with that of `m`, unless that did not suffice. -/
def Outlasts (s : State) (m m' : Run α) : Prop :=
  (∀ s', m s ≠ .error .outOfFuel s') → m' s = m s

theorem Outlasts.refl (s : State) (m : Run α) : Outlasts s m m := fun _ => rfl

theorem Outlasts.bind (hm : Outlasts s m m')
    (hf : ∀ a s₁, m s = .ok a s₁ → Outlasts s₁ (f a) (f' a)) :
    Outlasts s (m >>= f) (m' >>= f') := by
  intro hend
  simp only [Bind.bind, EStateM.bind] at hend ⊢
  cases h : m s with
  | ok a s₁ =>
    rw [hm (by simp [h]), h]
    apply hf a s₁ h
    simpa [h] using hend
  | error e s₁ =>
    rw [hm (by simpa [h] using hend), h]

theorem outlasts_drainAgenda {fuel more : Nat} {changed : Bool} :
    Outlasts s (drainAgenda p fuel changed) (drainAgenda p (fuel + more) changed) := by
  induction fuel generalizing s changed with
  | zero => exact fun hend => absurd rfl (hend s)
  | succ fuel ih =>
    rw [Nat.succ_add, drainAgenda_succ, drainAgenda_succ]
    apply Outlasts.bind (.refl _ _)
    intro new? s₁ _
    cases new? with
    | none => exact .refl _ _
    | some new => exact ih

theorem outlasts_expand {fuel more : Nat} :
    Outlasts s (expand p fuel) (expand p (fuel + more)) :=
  Outlasts.bind outlasts_drainAgenda fun _ _ _ => .refl _ _

end Fuel

end Run

namespace Problem
open State

variable {p : Problem} {s t u : State}

/-- Some fuel suffices for the agenda. -/
theorem Reachable.exists_drainAgenda {s : State} (hs : p.Reachable s) (changed : Bool) :
    ∃ fuel, ∀ t, Run.drainAgenda p fuel changed s ≠ .error .outOfFuel t := by
  have honce := Run.ensures_drainOnce hs.sound.toSane
  -- one pass, and then what suffices for the rest
  have hnext : ∀ (fuel : Nat) {new? : Option Bool} {s₁ : State},
      Run.drainOnce p s = .ok new? s₁ →
      (∀ t, (new?.elim (pure changed) fun new => Run.drainAgenda p fuel (changed || new)) s₁ ≠
        .error .outOfFuel t) →
      ∃ fuel, ∀ t, Run.drainAgenda p fuel changed s ≠ .error .outOfFuel t := by
    intro fuel new? s₁ hrun hend
    refine ⟨fuel + 1, fun t ht => hend t ?_⟩
    rwa [Run.drainAgenda_succ, bind_run_of_ok hrun] at ht
  cases hrun : Run.drainOnce p s with
  | error e s₁ =>
    refine ⟨1, fun t ht => ?_⟩
    rw [Run.drainAgenda_succ, Run.bind_error hrun] at ht
    cases ht
    exact honce.2 hrun rfl
  | ok new? s₁ =>
    have hs₁ : p.Reachable s₁ := hs.step .drainOnce trivial hrun
    have hdrained := honce.1 hrun
    cases hdrained with
    | done => exact hnext 0 hrun (by rintro t ⟨⟩)
    | @known a agenda hpop =>
      have hshorter : agenda.toList.length < s.agenda.toList.length := by
        simp [Queue.toList_of_pop? hpop]
      obtain ⟨fuel, hend⟩ := exists_drainAgenda hs₁ changed
      exact hnext fuel hrun (by simpa using hend)
    | new hpop hnew h =>
      have hrank := rank_lt h hs.sound.toSane hpop hnew hs.inRange
      obtain ⟨fuel, hend⟩ := exists_drainAgenda hs₁ true
      exact hnext fuel hrun (by simpa using hend)
termination_by ((s.unsurveyed p).ncard, (s.vacant p).ncard, s.agenda.toList.length)
decreasing_by
  · exact .right _ (.right _ hshorter)
  · rcases hrank with hlt | ⟨heq, hlt⟩
    · exact .left _ _ hlt
    · rw [heq]
      exact .right _ (.left _ _ hlt)

/-- Parts of an analysis that lead from `s` to `t`, with what is on the agenda after each of them and
what is taken from it to be instantiated. -/
inductive Trace (p : Problem) (s : State) : List Activation → List Activation → State → Prop where
  | refl : Trace p s [] [] s
  | step {scheduled taken : List Activation} {t u : State} {α : Type} {a : α} (part : Part α) :
      Trace p s scheduled taken t → part.Takes (p.Within t) → part.run p t = .ok a u →
      Trace p s (scheduled ++ u.agenda.toList) (taken ++ part.takes a t) u

variable {scheduled taken later more : List Activation}

theorem Trace.trans (h : p.Trace s scheduled taken t) (h' : p.Trace t later more u) :
    p.Trace s (scheduled ++ later) (taken ++ more) u := by
  induction h' with
  | refl => simpa using h
  | step part _ htakes hrun ih => simpa only [List.append_assoc] using ih.step part htakes hrun

theorem Trace.reachable (h : p.Trace s scheduled taken t) (hs : p.Reachable s) :
    p.Reachable t := by
  induction h with
  | refl => exact hs
  | step part _ htakes hrun ih => exact ih.step part htakes hrun

/-- What was scheduled is instantiated or will be, and what is instantiated was taken, once. -/
theorem Trace.accounts (h : p.Trace (.initial p.settings) scheduled taken s) :
    (∀ a ∈ scheduled, s.Awaits a) ∧ taken.Nodup ∧ ∀ a, a ∈ taken ↔ a ∈ s.instantiated := by
  induction h with
  | refl => exact ⟨by simp, .nil, fun a => by simp [State.initial]⟩
  | @step scheduled taken t u α r part h htakes hrun ih =>
    obtain ⟨hawaits, hnodup, htaken⟩ := ih
    have ht := (h.reachable .initial).sound
    obtain ⟨hleads, hinst⟩ := part.leadsTo ht htakes hrun
    refine ⟨fun a ha => ?_, ?_⟩
    · rcases List.mem_append.1 ha with ha | ha
      · exact (hleads.retains ht.toSane).awaits a (hawaits a ha)
      · exact .inl ha
    rcases hinst with ⟨hnone, hinst⟩ | ⟨b, hb, hnew, hinst⟩
    · rw [hnone, hinst, List.append_nil]
      exact ⟨hnodup, htaken⟩
    · have hfresh : b ∉ taken := fun hold => hnew ((htaken b).1 hold)
      rw [hb, hinst]
      refine ⟨hnodup.append (List.nodup_singleton b) (by simpa using hfresh), fun a => ?_⟩
      simp only [List.mem_append, List.mem_singleton, htaken, mem_insert]
      exact ⟨fun h => h.symm.imp_left Eq.symm, fun h => h.symm.imp_right Eq.symm⟩

theorem Trace.exists_drainAgenda {fuel : Nat} {changed r : Bool} (hs : p.Reachable s)
    (h : Run.drainAgenda p fuel changed s = .ok r t) :
    (∃ later more, p.Trace s later more t) ∧ t.agenda.toList = [] := by
  induction fuel generalizing s changed with
  | zero => cases h
  | succ fuel ih =>
    rw [Run.drainAgenda_succ, bind_eq_ok] at h
    obtain ⟨new?, s₁, hrun, h⟩ := h
    have hone := Trace.refl.step .drainOnce trivial hrun
    cases new? with
    | some new =>
      obtain ⟨⟨later, more, hrest⟩, hnil⟩ := ih (hone.reachable hs) h
      exact ⟨⟨_, _, hone.trans hrest⟩, hnil⟩
    | none =>
      cases h
      have hdrained := (Run.ensures_drainOnce hs.sound.toSane).1 hrun
      cases hdrained with
      | done hnil => exact ⟨⟨_, _, hone⟩, hnil⟩

theorem Trace.exists_links {l : List Activation} (hs : p.Reachable s)
    (hl : ∀ a ∈ l, Activation.Refs (p.Within s) a) (h : l.forM (Run.link p) s = .ok () t) :
    (∃ later more, p.Trace s later more t) ∧ t.agenda = s.agenda := by
  induction l generalizing s with
  | nil =>
    cases h
    exact ⟨⟨_, _, .refl⟩, rfl⟩
  | cons a l ih =>
    obtain ⟨_, s₁, hrun, h⟩ := bind_eq_ok.1 h
    have hone := Trace.refl.step (.link a) (hl a (.head _)) hrun
    have hwithin : ∀ b ∈ l, Activation.Refs (p.Within s₁) b := by
      have hout := safe_part (S := p.everywhere) (.link a) (hl a (.head _)) hs
      rw [show (Part.link a).run p s = _ from hrun] at hout
      cases hout with
      | ok _ hlater =>
        exact fun b hb => (hl b (.tail _ hb)).mono fun _ _ => State.within_later hlater
    obtain ⟨⟨later, more, hrest⟩, hagenda⟩ := ih (hone.reachable hs) hwithin h
    refine ⟨⟨_, _, hone.trans hrest⟩, hagenda.trans ?_⟩
    rw [((Run.stays_link s hs.sound.graph).1 hrun).frame]

/-- Expanding is made of parts of an analysis, and it leaves an empty agenda. -/
theorem Trace.exists_expand {fuel : Nat} {changed : Bool} (hs : p.Reachable s)
    (h : Run.expand p fuel s = .ok changed t) :
    (∃ later more, p.Trace s later more t) ∧ t.agenda.toList = [] := by
  obtain ⟨reached, s₁, hrun, h⟩ := bind_eq_ok.1 h
  obtain ⟨⟨later, more, h₁⟩, hnil⟩ := exists_drainAgenda hs hrun
  cases reached with
  | false =>
    cases h
    exact ⟨⟨_, _, h₁⟩, hnil⟩
  | true =>
    have hs₁ := h₁.reachable hs
    obtain ⟨_, s₂, hlinks, h⟩ := bind_eq_ok.1 ((get_bind_run ..).symm.trans h)
    cases h
    have hrange : ∀ a ∈ s₁.links.toList, Activation.Refs (p.Within s₁) a :=
      fun a ha => hs₁.inRange.links a (Array.mem_toList_iff.1 ha)
    obtain ⟨⟨later', more', h₂⟩, hagenda⟩ := exists_links hs₁ hrange hlinks
    exact ⟨⟨_, _, h₁.trans h₂⟩, hagenda ▸ hnil⟩

/-- From every state that an analysis can come to, expanding works off the agenda with finitely many
passes, and more fuel changes nothing. Whatever was on the agenda before or comes to it meanwhile is
instantiated in the end, and over the whole run it was taken to be so exactly once. -/
theorem expand_drains (hs : p.Trace (.initial p.settings) scheduled taken s) :
    (∃ least, (∀ t, Run.expand p least s ≠ .error .outOfFuel t) ∧
      ∀ fuel ≥ least, Run.expand p fuel s = Run.expand p least s) ∧
    ∀ fuel changed t, Run.expand p fuel s = .ok changed t →
      t.agenda.toList = [] ∧ (∃ later more, p.Trace s later more t) ∧
      ∀ later more, p.Trace s later more t → ∀ a ∈ scheduled ++ later,
        a ∈ t.instantiated ∧ (taken ++ more).count a = 1 := by
  have hreach := hs.reachable .initial
  refine ⟨?_, fun fuel changed t hrun => ?_⟩
  · obtain ⟨least, hend⟩ := hreach.exists_drainAgenda false
    have hends : ∀ t, Run.expand p least s ≠ .error .outOfFuel t :=
      fun t ht => hend t ((Run.ensures_expand hreach.sound.toSane).2 ht rfl)
    refine ⟨least, hends, fun fuel hfuel => ?_⟩
    obtain ⟨extra, rfl⟩ := Nat.exists_eq_add_of_le hfuel
    exact Run.outlasts_expand hends
  · obtain ⟨htrace, hnil⟩ := Trace.exists_expand hreach hrun
    refine ⟨hnil, htrace, fun later more h a ha => ?_⟩
    obtain ⟨hawaits, hnodup, htaken⟩ := (hs.trans h).accounts
    have hinst : a ∈ t.instantiated := (hawaits a ha).resolve_left (by simp [hnil])
    exact ⟨hinst, List.count_eq_one_of_mem hnodup ((htaken a).2 hinst)⟩

/-- An entry is worked off together with the methods that it calls. -/
theorem expand_drains_lateCapture : ∃ (s t : State) (later more : List Activation),
    (lateCapture 1).Trace (.initial (lateCapture 1).settings) [(.empty, ⟨0⟩)] [] s ∧
    Run.expand (lateCapture 1) 4 s = .ok true t ∧ t.instantiated.contains (⟨2⟩, ⟨2⟩) = true ∧
    (lateCapture 1).Trace s later more t ∧ more.count (.empty, ⟨0⟩) = 1 := by
  obtain ⟨_, s, hs, hagenda⟩ := exists_of_endsWith
    (r := Run.addEntry (lateCapture 1) ⟨0⟩ (.initial (lateCapture 1).settings))
    (q := fun _ s => s.agenda.toList == [(.empty, ⟨0⟩)] &&
      endsWith (Run.expand (lateCapture 1) 4 s) fun changed t =>
        changed && t.instantiated.contains (⟨2⟩, ⟨2⟩)) (by decide +kernel)
  rw [Bool.and_eq_true, beq_iff_eq] at hagenda
  obtain ⟨_, t, ht, hinst⟩ := exists_of_endsWith hagenda.2
  rw [Bool.and_eq_true] at hinst
  obtain ⟨rfl, hinst⟩ := hinst
  have htrace : (lateCapture 1).Trace (.initial (lateCapture 1).settings) [(.empty, ⟨0⟩)] [] s := by
    have htakes : (Part.addEntry ⟨0⟩).Takes
        ((lateCapture 1).Within (.initial (lateCapture 1).settings)) :=
      fun _ => Nat.zero_lt_succ 2
    have hstep := Trace.refl.step (.addEntry ⟨0⟩) htakes hs
    rwa [hagenda.1] at hstep
  obtain ⟨-, ⟨later, more, hcall⟩, hdone⟩ := (expand_drains htrace).2 4 true t ht
  exact ⟨s, t, later, more, htrace, ht, hinst, hcall, (hdone later more hcall _ (.head _)).2⟩

end Problem

end PointsTo
