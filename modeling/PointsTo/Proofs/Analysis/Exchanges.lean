import PointsTo.Proofs.Analysis.Issued

/-! What calls put into a node and take out of it. -/
namespace PointsTo
open FlowGraph

variable {p : Problem} {w : Phase} {s t : State} {site : StaticSite} {c : ContextId}
  {a : CallArg} {n : NodeId}

namespace State

/-- What an argument carries flows into the node `n`. -/
def Feeds (p : Problem) (s : State) (c : ContextId) (a : CallArg) (n : NodeId) : Prop :=
  a.Carries p.scene → ∃ x, s.NodeAt p c a x ∧ s.graph.Edge x n .copy

/-- What is in the node `n` flows to the target of a call. -/
def Delivers (p : Problem) (s : State) (site : StaticSite) (c : ContextId) (n : NodeId) : Prop :=
  ∀ target, site.target = some target →
    ∃ y, s.graph.nodeOf? p.scene c target = .ok (some y) ∧ s.graph.Edge n y .copy

theorem Feeds.retains (h : s.Feeds p c a n) (hr : s.Retains p t) : t.Feeds p c a n := by
  intro hcarries
  obtain ⟨x, hx, hedge⟩ := h hcarries
  exact ⟨x, hx.retains hr, hr.graph.edge hedge⟩

theorem Delivers.retains (h : s.Delivers p site c n) (hr : s.Retains p t) : t.Delivers p site c n := by
  intro target htarget
  obtain ⟨y, hy, hedge⟩ := h target htarget
  exact ⟨y, hr.nodeOf _ _ _ hy, hr.graph.edge hedge⟩

theorem Finished.has_of_edge (h : s.Finished p) {x y o : NodeId} (he : s.graph.Edge x y .copy)
    (ho : s.points.Has x o) : s.points.Has y o :=
  h.copies ⟨.copy, rfl, he⟩ ho

/-- At the end everything that a stored argument points to has arrived. -/
theorem Finished.feeds (h : s.Finished p) (hfeeds : s.Feeds p c a n) (hcarries : a.Carries p.scene) :
    ∃ x, s.NodeAt p c a x ∧ ∀ o, s.points.Has x o → s.points.Has n o := by
  obtain ⟨x, hx, hedge⟩ := hfeeds hcarries
  exact ⟨x, hx, fun _ => h.has_of_edge hedge⟩

theorem Finished.delivers (h : s.Finished p) (hdelivers : s.Delivers p site c n) {target : ValueId}
    (htarget : site.target = some target) :
    ∃ y, s.graph.nodeOf? p.scene c target = .ok (some y) ∧
      ∀ o, s.points.Has n o → s.points.Has y o := by
  obtain ⟨y, hy, hedge⟩ := hdelivers target htarget
  exact ⟨y, hy, fun _ => h.has_of_edge hedge⟩

end State

namespace Run

theorem ensures_argumentAt {i : Nat} (hs : s.Sane p) :
    Ensures (argumentAt p site c i) s fun x? t => s.Steps p w t ∧
      ∀ a, (site.args.getD [])[i]? = some a → a.Carries p.scene →
        ∃ x ∈ x?, t.NodeAt p c a x := by
  unfold argumentAt
  split
  · next a ha =>
    refine (ensures_argument (w := w) hs).mono ?_
    rintro x? t ⟨ht, hx⟩
    refine ⟨ht, fun a' ha' hcarries => ?_⟩
    cases Option.some.inj (ha.symm.trans ha')
    exact hx hcarries
  · next hnone =>
    exact ensures_pure ⟨.refl, fun a ha => absurd (hnone.symm.trans ha) (by simp)⟩

end Run

end PointsTo
