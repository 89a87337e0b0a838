import PointsTo.Proofs.Analysis.Grounded
import PointsTo.Proofs.Analysis.Passages

/-! The calls that an analysis makes on its way. What it does is told act by act. Everything that
concerns call sites is an act of its own, and so is each call with a known callee. -/
namespace PointsTo

theorem Run.walks_reach {p : Problem} {w : Phase} {k : Caller} {m : MethodId} :
    Walks p w k (reach p m) := by
  intro s _
  rw [← bind_pure (reach p m)]
  exact ensures_reach_bind fun _ _ hcalls => ensures_pure (.single (.calls hcalls))

namespace State

variable {p : Problem} {w : Phase} {k : Caller} {s t : State} {site : StaticSite}
  {c : ContextId} {object : Option NodeId}

/-- A call is made under a context, on an object if it is dispatched. -/
structure Places (p : Problem) (s : State) (site : StaticSite) (c : ContextId)
    (object : Option NodeId) (t : State) : Prop where
  filed : s.calls.sites.static? site.id = some site
  context : s.contexts.Has c
  known : ∀ o ∈ object, o.index < s.graph.nodes.size
  run : ∃ new, Run.call p site c object s = .ok new t

/-- One act of an analysis. -/
inductive Act (p : Problem) (s : State) : State → Prop where
  /-- Nothing that concerns call sites. -/
  | still {w : Phase} {t : State} : s.Turns p w t → t.calls = s.calls →
      t.synthetic = s.synthetic → Act p s t
  | call {site : StaticSite} {c : ContextId} {object : Option NodeId} {t : State} :
      s.Places p site c object t → Act p s t
  | survey {m : MethodId} {new : Bool} {t : State} : Run.summarize p m s = .ok new t → Act p s t
  | entry {m : MethodId} {t : State} : Run.addEntry p m s = .ok () t → Act p s t
  | reach {m : MethodId} {t : State} : Run.reach p m s = .ok () t → Act p s t
  | resolve (i : SiteId) (m : MethodId) :
      Act p s { s with calls := { s.calls with sites := (s.calls.sites.resolve i m).2 } }
  | join {i j : SiteId} {site : CallSite} {caller : MethodId} (callee : MethodId)
      (type : CallType) : s.calls.sites.get? i = some site → site.caller = caller →
      Act p s { s with calls := (s.calls.addEdge j caller callee type).2 }
  | solution {found : Solution} {t : State} : s.Settles p found t → Act p s t
  | round : Act p s { s with rounds := s.rounds + 1 }

/-- What an analysis does between two states. -/
abbrev History (p : Problem) : State → State → Prop := Relation.ReflTransGen (Act p)

theorem Sane.serves_call {i : SiteId} (hs : s.Sane p) (hc : s.contexts.Has c)
    (hsite : s.calls.sites.static? i = some site) : s.Serves p ⟨c, site.id⟩ := by
  have hknows : s.extent.Knows ⟨c, none⟩ := ⟨hc, nofun⟩
  exact ⟨hs, hknows.at_site (hs.sites.static_lt_size hsite)⟩

theorem Places.steps (h : s.Places p site c object t) (hs : s.Sane p) :
    s.Steps p .dispatch t := by
  obtain ⟨new, hrun⟩ := h.run
  exact (Run.walks_call (w := .dispatch) nofun (by decide) s (hs.serves_call h.context h.filed)).1 hrun

theorem Act.leadsTo (h : s.Act p t) (hs : s.Sane p) : s.LeadsTo p t := by
  have hsteps : s.Steps p .dispatch t → s.LeadsTo p t := fun h => h.turns.leadsTo
  cases h with
  | still h => exact h.leadsTo
  | call h => exact hsteps (h.steps hs)
  | survey h => exact hsteps ((Run.ensures_summarize (w := .dispatch) hs.serves).1 h).1
  | entry h => exact hsteps ((Run.walks_addEntry (w := .dispatch) s hs.serves).1 h)
  | reach h => exact hsteps ((Run.walks_reach (w := .dispatch) s hs.serves).1 h)
  | resolve => exact hsteps (.single (.calls (CallGraph.grows_sites SiteTable.resolve_grows)))
  | join => exact hsteps (.single (.calls CallGraph.addEdge_grows))
  | solution h => exact .single (.solution h)
  | round => exact .single .round

theorem History.leadsTo (h : s.History p t) (hs : s.Sane p) : s.LeadsTo p t := by
  induction h with
  | refl => exact .refl
  | tail _ h ih => exact ih.trans (h.leadsTo (ih.sane hs))

theorem History.sane (h : s.History p t) (hs : s.Sane p) : t.Sane p := (h.leadsTo hs).sane hs

theorem History.retains (h : s.History p t) (hs : s.Sane p) : s.Retains p t :=
  (h.leadsTo hs).retains hs

theorem History.precedes (h : s.History p t) (hs : s.Sane p) : s.Precedes t :=
  (h.leadsTo hs).precedes hs

theorem History.advances (h : s.History p t) (hs : s.Sane p) : s.Advances p.scene t :=
  (h.retains hs).advances (h.precedes hs)

/-- Turns that leave the call sites alone are an act. -/
theorem Turns.history (h : s.Turns p w t) (hcalls : t.calls = s.calls)
    (hsynthetic : t.synthetic = s.synthetic) : s.History p t :=
  .single (.still h hcalls hsynthetic)

theorem History.serves (h : s.History p t) (hs : s.Serves p k) : t.Serves p k :=
  ⟨h.sane hs.1, hs.2.mono (h.precedes hs.1).extent⟩

/-- On its way to `s` the analysis has made a call. -/
def Made (p : Problem) (s : State) (site : StaticSite) (c : ContextId)
    (object : Option NodeId) : Prop :=
  ∃ t t', (State.initial p.settings).History p t ∧ t.Places p site c object t' ∧ t'.History p s

theorem Made.mono (h : s.Made p site c object) (ht : s.History p t) : t.Made p site c object := by
  obtain ⟨s₁, s₂, h₁, h₂, h₃⟩ := h
  exact ⟨s₁, s₂, h₁, h₂, h₃.trans ht⟩

theorem Places.made (h : s.Places p site c object t) (hs : (initial p.settings).History p s) :
    t.Made p site c object :=
  ⟨s, t, hs, h, .refl⟩

end State

theorem Problem.sane_of_history {p : Problem} {s : State}
    (h : (State.initial p.settings).History p s) : s.Sane p :=
  h.sane (State.between_initial p).toSane

namespace State

section Continues

variable {p : Problem} {w : Phase} {k : Caller} {s t : State}

/-- What an analysis does between two states. If no statement belongs to two methods, the call graph
and the methods that run stay in step. -/
structure Continues (p : Problem) (s t : State) : Prop where
  history : s.History p t
  grounded : p.scene.OneBody → s.Grounded p → t.Grounded p

instance : Std.Refl (Continues p) := ⟨fun _ => ⟨.refl, fun _ => id⟩⟩

theorem Continues.trans {u : State} (h : s.Continues p t) (h' : t.Continues p u) :
    s.Continues p u :=
  ⟨h.history.trans h'.history, fun hone => h'.grounded hone ∘ h.grounded hone⟩

instance : Trans (Continues p) (Continues p) (Continues p) := ⟨Continues.trans⟩

instance : Preserves (Serves p k) (Continues p) := ⟨fun _ _ h hs => h.history.serves hs⟩

/-- A step of the bookkeeping that leaves the call sites alone is an act. -/
theorem Turn.continues (h : s.Turn p w t) (hcalls : t.calls = s.calls)
    (hsynthetic : t.synthetic = s.synthetic)
    (htracks : p.scene.OneBody → s.Grounded p → s.Tracks p.scene t) : s.Continues p t :=
  ⟨Turns.history (.single h) hcalls hsynthetic,
    fun hone hs => (hs.tracks h (htracks hone hs) hcalls).grounded hs⟩

/-- The analysis comes through a state. -/
structure Arises (p : Problem) (s : State) : Prop where
  history : (initial p.settings).History p s
  grounded : p.scene.OneBody → s.Grounded p

theorem Arises.sane (h : s.Arises p) : s.Sane p := Problem.sane_of_history h.history

theorem Arises.continues (h : s.Arises p) (ht : s.Continues p t) : t.Arises p :=
  ⟨h.history.trans ht.history, fun hone => ht.grounded hone (h.grounded hone)⟩

end Continues

/-- The call sites are left alone. -/
structure Calm (scene : Scene) (s t : State) : Prop where
  calls : t.calls = s.calls
  synthetic : t.synthetic = s.synthetic
  graph : s.graph.Consistent scene → t.graph.Consistent scene

variable {scene : Scene} {s t : State}

instance : Std.Refl (Calm scene) := ⟨fun _ => ⟨rfl, rfl, id⟩⟩

instance : Trans (Calm scene) (Calm scene) (Calm scene) where
  trans h h' := ⟨h'.calls.trans h.calls, h'.synthetic.trans h.synthetic, h'.graph ∘ h.graph⟩

instance : Preserves (fun s => s.graph.Consistent scene) (Calm scene) :=
  ⟨fun _ _ h hs => h.graph hs⟩

theorem Still.calm (h : s.Still scene t) : s.Calm scene t where
  calls := by rw [h.frame]
  synthetic := by rw [h.frame]
  graph := h.graph

end State

namespace Run
open State

variable {p : Problem} {w : Phase} {k : Caller} {s : State} {c : ContextId} {α : Type}

/-- The computation leaves the call sites alone. -/
abbrev Calms (scene : Scene) (m : Run α) : Prop :=
  Follows (fun s => s.graph.Consistent scene) (Calm scene) m

/-- The computation is made of acts. -/
abbrev Tells (p : Problem) (k : Caller) (m : Run α) : Prop := Follows (Serves p k) (Continues p) m

section Calms

variable {scene : Scene}

theorem calms_of_stays {m : Run α} (h : Stays scene m) : Calms scene m :=
  fun s hs => (h s hs).mono fun _ _ h => h.calm

/-- Calls may be attached to a node. -/
theorem calms_attach {n : NodeId} {f : PointerInfo → PointerInfo} :
    Calms scene (do mapPointer n f; wake n) := by
  refine .bind (fun s _ => ensures_mapPointer.mono ?_) fun _ => .modify fun s _ => ⟨rfl, rfl, id⟩
  rintro _ _ rfl
  exact ⟨rfl, rfl, fun h => h.mapPointer n f⟩

end Calms

theorem tells_of_stays {m : Run α} (hwalk : Walks p w k m) (hstays : Stays p.scene m) :
    Tells p k m := by
  intro s hs
  refine ((hwalk s hs).and (hstays s hs.1.graph)).mono fun _ t ⟨hsteps, hstill⟩ => ?_
  have hturns := Steps.turns hsteps
  exact ⟨hturns.history hstill.calm.calls hstill.calm.synthetic,
    fun _ hgrounded => (hgrounded.still hturns hstill).grounded hgrounded⟩

theorem tells_reach {m : MethodId} : Tells p k (reach p m) := fun s hs =>
  (walks_reach (w := .dispatch) s hs).runs.mono fun _ _ ⟨hsteps, hrun⟩ => ⟨.single (.reach hrun),
    fun _ h => (h.maintains (Steps.turns hsteps) ((maintains_reach h.tracked).1 hrun)).grounded h⟩

theorem tells_summarize {m : MethodId} : Tells p k (summarize p m) := fun _ hs =>
  (ensures_summarize (w := .dispatch) hs).runs.mono fun _ _ ⟨hsteps, hrun⟩ => ⟨.single (.survey hrun),
    fun _ h => (h.maintains hsteps.1.turns ((maintains_summarize h.tracked).1 hrun)).grounded h⟩

end Run

end PointsTo
