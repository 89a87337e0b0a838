import PointsTo.Proofs.Guard
import PointsTo.Proofs.Scene.Inheritance
import PointsTo.Proofs.Scene.Scoping

/-! Questions to a well-formed scene that leave notices. None of the notices is about a context. -/
namespace PointsTo

/-- No context was found to be unknown. -/
def NoUnknownContext (log : Array Notice) : Prop := ∀ c, Notice.unknownContext c ∉ log

theorem NoUnknownContext.push {log : Array Notice} {n : Notice} (h : NoUnknownContext log)
    (hn : ∀ c, n ≠ .unknownContext c) : NoUnknownContext (log.push n) := by
  intro c hc
  rcases Array.mem_push.1 hc with hc | hc
  · exact h c hc
  · exact hn c hc.symm

/-- A question to the scene as a part of a run: where it should have an answer, it has one. -/
theorem Guard.Safe.of_answers {ε σ α : Type} {G : Guard ε σ} {s : σ} {C : Prop}
    {x : Except Fault α} {Q : α → Prop} {m : EStateM ε σ α} {g : Fault → ε} (hx : C → Answers x Q)
    (hm : m s = x.casesOn (fun e => .error (g e) s) fun a => .ok a s)
    (hfail : ∀ e, ¬ C → G.Holds s → G.Fails (g e) s) :
    G.Safe s m fun t a => t = s ∧ x = .ok a ∧ (C → Q a) := by
  intro hs
  rw [hm]
  cases x with
  | ok a =>
    refine .ok hs (G.refl s) ⟨rfl, rfl, fun hc => ?_⟩
    obtain ⟨b, hb, hq⟩ := hx hc
    cases hb
    exact hq
  | error e =>
    refine .error (G.refl s) (hfail e (fun hc => ?_) hs)
    obtain ⟨b, hb, -⟩ := hx hc
    cases hb

namespace Scan

/-- What questions keep. They fail only if the scene is not well-formed. -/
def guard (scene : Scene) : Guard Fault (Array Notice) where
  Holds := NoUnknownContext
  Later _ _ := True
  Fails _ log := ¬ scene.WellFormed ∧ NoUnknownContext log
  refl _ := trivial
  trans _ _ := trivial

variable {scene : Scene} {log : Array Notice} {α β : Type}

theorem safe_ask_bind {x : Except Fault α} {Q : α → Prop} {f : α → Scan β}
    {W : Array Notice → β → Prop} (hx : scene.WellFormed → Answers x Q)
    (hf : ∀ a, x = .ok a → (scene.WellFormed → Q a) → (guard scene).Safe log (f a) W) :
    (guard scene).Safe log (liftM x >>= f) W := by
  refine .bind (.of_answers (g := id) hx (by cases x <;> rfl) fun _ h hlog => ⟨h, hlog⟩) ?_
  rintro _ a - ⟨rfl, ha, hq⟩
  exact hf a ha hq

theorem safe_ask {x : Except Fault α} {Q : α → Prop} (hx : scene.WellFormed → Answers x Q) :
    (guard scene).Safe log (liftM x) fun _ a => scene.WellFormed → Q a := by
  rw [← bind_pure (liftM x : Scan α)]
  exact safe_ask_bind hx fun a _ ha => .pure ha

theorem safe_note {n : Notice} (hn : ∀ c, n ≠ .unknownContext c) :
    (guard scene).Runs log (note n) :=
  .modify fun hlog => ⟨hlog.push hn, trivial, trivial⟩

end Scan

namespace Scene
open Scan

variable {s : Scene} {log : Array Notice} {c : ClassId} {name : String} {m : MethodId} {v : ValueId}

theorem safe_ancestors (hc : s.Sure c) :
    (guard s).Safe log (s.ancestors c) fun _ chain =>
      s.WellFormed → ∀ d ∈ chain, s.Has .classDecl d := by
  refine safe_ask_bind (fun h => h.ancestry (hc h)) fun a _ ha => ?_
  split
  · exact .next (safe_note nofun) fun _ _ _ => .pure ha
  · exact .pure ha

theorem safe_dispatch (hc : s.Sure c) :
    (guard s).Safe log (s.dispatch c name) fun _ m? =>
      s.WellFormed → ∀ m ∈ m?, s.Has .method m :=
  .bind (safe_ancestors hc) fun _ _ _ hchain => safe_ask fun h => h.declaredIn? (hchain h)

theorem safe_resolveLocal (hm : s.Sure m)
    (hv : s.Sure v) :
    (guard s).Safe log (s.resolveLocal m v) fun _ r? =>
      s.WellFormed → ∀ r ∈ r?, s.Has .method r.1 ∧ s.Has .value r.2 := by
  refine safe_ask_bind (fun h => h.resolve (hm h) (hv h)) fun r _ hr => ?_
  cases r with
  | bound owner d =>
    refine .pure fun h => ?_
    rintro _ ⟨⟩
    exact hr h owner d rfl
  | sourceMissing source name => exact .next (safe_note nofun) fun _ _ _ => .pure nofun
  | notExported file name => exact .next (safe_note nofun) fun _ _ _ => .pure nofun
  | unbound => exact .pure nofun

theorem safe_hierarchyTargets {signature : Signature} :
    (guard s).Safe log (s.hierarchyTargets signature) fun _ ms =>
      s.WellFormed → ∀ m ∈ ms, s.Has .method m := by
  unfold hierarchyTargets
  split
  · exact .pure nofun
  split
  · exact .pure nofun
  next c hc =>
  refine .bind (safe_dispatch fun h => h.classNamed? hc) fun _ own _ hown => ?_
  split
  · exact .pure fun h m hm => hown h m (by simpa using hm)
  refine safe_ask_bind (fun h => h.overrides fun d hd => h.subclasses hd) fun below _ hbelow => ?_
  have htargets : ∀ m ∈ ((own.toList ++ below).foldl (·.insert ·)
      (∅ : Std.TreeSet MethodId)).toList, s.Sure m := by
    intro m hm h
    rw [Std.TreeSet.mem_toList, mem_foldl_insert] at hm
    rcases hm with hm | hm
    · simp at hm
    · rcases List.mem_append.1 hm with hm | hm
      · exact hown h m (by simpa using hm)
      · exact hbelow h m hm
  refine .bind (.filterM fun _ m _ hm => ?_) fun _ concrete _ hconcrete => ?_
  · exact safe_ask_bind (fun h => h.method (htargets m hm h)) fun _ _ _ => .pure trivial
  · split
    · exact .pure fun h m hm => htargets m (hconcrete m hm) h
    · exact .pure nofun

end Scene

end PointsTo
