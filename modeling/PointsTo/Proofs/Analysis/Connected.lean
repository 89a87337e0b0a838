import PointsTo.Proofs.Analysis.Answers
import PointsTo.Proofs.Call.Reach

/-! What a method puts into the graph under a context: its assignments, its allocations and its
calls. -/
namespace PointsTo.State

variable {p : Problem} {w : Phase} {s s' : State} {c : ContextId}

/-- A call with a known callee is connected with it, if neither a model takes it over nor it waits
for the objects of its receiver. -/
def StaticWired (p : Problem) (s : State) (c : ContextId) (i : SiteId) : Prop :=
  ∃ site, s.calls.sites.static? i = some site ∧
    (p.settings.policy ≠ .object → p.HasBody site.callee → s.Modelled p site none ∨
      ∃ c', s.Wired p site c none c' 0)

/-- An assignment is in the graph under a context. -/
def Assigns (p : Problem) (s : State) (c : ContextId) (e : LocalEdge) : Prop :=
  ∃ x y, s.graph.nodeOf? p.scene c e.source = .ok (some x) ∧
    s.graph.nodeOf? p.scene c e.target = .ok (some y) ∧ s.graph.Edge x y e.kind

/-- An allocation that is stored in a field is in the graph under a context. -/
def Stores (p : Problem) (s : State) (c : ContextId) (a : FieldAllocation) : Prop :=
  ∃ o r n b, s.graph.nodeOf? p.scene c a.object = .ok (some o) ∧
    s.graph.nodeOf? p.scene c a.field = .ok (some r) ∧ s.graph.At n b ∧ b.context = c ∧
    b.location = .temporary a.stmt ∧ s.graph.Edge o n .address ∧ s.graph.Edge n r .write

/-- The receiver of a call that waits for objects is in the graph under a context. -/
def Attached (p : Problem) (s : State) (c : ContextId) (i : SiteId) : Prop :=
  ∃ site v, s.calls.sites.dynamic? i = some site ∧ site.receiver = some (.value v) ∧
    s.HasNode p c v

/-- A summary is in the graph under a context. -/
structure Filled (p : Problem) (s : State) (c : ContextId) (summary : Summary) : Prop where
  edges : ∀ e ∈ summary.edges, s.Assigns p c e
  allocations : ∀ a ∈ summary.fieldAllocations, s.Stores p c a
  wired : ∀ i ∈ summary.staticCalls, s.StaticWired p c i
  attached : ∀ i, summary.Waits i → s.Attached p c i

/-- The summary of a method is in the graph under a context. -/
structure Instance (p : Problem) (s : State) (a : Activation) : Prop where
  surveyed : p.HasBody a.2 → a.2 ∈ s.summaries
  filled : ∀ (summary : Summary), s.summaries[a.2]? = some summary → s.Filled p a.1 summary
  linked : a.2 ∈ s.captures → a ∈ s.links

/-- All that was taken from the agenda is in the graph. -/
def Instances (p : Problem) (s : State) : Prop := ∀ a ∈ s.instantiated, s.Instance p a

theorem StaticWired.retains {i : SiteId} (h : s.StaticWired p c i) (hr : s.Retains p s') :
    s'.StaticWired p c i := by
  obtain ⟨site, hsite, hwired⟩ := h
  refine ⟨site, hr.calls.sites.static? hsite, fun hpolicy hbody => ?_⟩
  refine (hwired hpolicy hbody).imp (hr.modelled_iff (by simp)).1 ?_
  rintro ⟨c', hc'⟩
  exact ⟨c', hc'.retains hr⟩

theorem Assigns.retains {e : LocalEdge} (h : s.Assigns p c e) (hr : s.Retains p s') :
    s'.Assigns p c e := by
  obtain ⟨x, y, hx, hy, hedge⟩ := h
  exact ⟨x, y, hr.nodeOf _ _ _ hx, hr.nodeOf _ _ _ hy, hr.graph.edge hedge⟩

theorem Stores.retains {a : FieldAllocation} (h : s.Stores p c a) (hr : s.Retains p s') :
    s'.Stores p c a := by
  obtain ⟨o, n, r, b, ho, hn, hb, hcontext, hlocation, haddress, hwrite⟩ := h
  obtain ⟨b', hb', hkeep⟩ := hr.graph.nodes _ _ hb
  exact ⟨o, n, r, b', hr.nodeOf _ _ _ ho, hr.nodeOf _ _ _ hn, hb', hkeep.context.trans hcontext,
    hkeep.location.trans hlocation, hr.graph.edge haddress, hr.graph.edge hwrite⟩

theorem Attached.retains {i : SiteId} (h : s.Attached p c i) (hr : s.Retains p s') :
    s'.Attached p c i := by
  obtain ⟨site, v, hsite, hv, hnode⟩ := h
  exact ⟨site, v, hr.calls.sites.dynamic? hsite, hv, hnode.retains hr⟩

theorem Filled.retains {summary : Summary} (h : s.Filled p c summary) (hr : s.Retains p s') :
    s'.Filled p c summary where
  edges e he := (h.edges e he).retains hr
  allocations a ha := (h.allocations a ha).retains hr
  wired i hi := (h.wired i hi).retains hr
  attached i hi := (h.attached i hi).retains hr

theorem Instance.retains {a : Activation} (h : s.Instance p a) (hr : s.Retains p s')
    (hs' : s'.Sane p) : s'.Instance p a where
  surveyed hbody := hr.mem_summaries (h.surveyed hbody)
  filled summary hsummary := by
    have hmem : a.2 ∈ s'.summaries :=
      Std.TreeMap.mem_iff_isSome_getElem?.2 (by rw [hsummary]; rfl)
    have hold := h.surveyed (hs'.recorded.summaries a.2 hmem)
    rw [Std.TreeMap.mem_iff_isSome_getElem?, Option.isSome_iff_exists] at hold
    obtain ⟨known, hknown⟩ := hold
    cases Option.some.inj ((hr.summaries a.2 known hknown).symm.trans hsummary)
    exact (h.filled _ hknown).retains hr
  linked ha := by
    have hold := h.surveyed (hs'.recorded.summaries a.2 (hs'.recorded.captures a.2 ha))
    refine hr.links a (h.linked ?_)
    rw [Std.TreeMap.mem_iff_isSome_getElem?] at ha ⊢
    rwa [← hr.captures a.2 hold]

theorem Instances.retains (h : s.Instances p) (hr : s.Retains p s') (hs' : s'.Sane p)
    (hsame : s'.instantiated = s.instantiated) : s'.Instances p :=
  fun a ha => (h a (hsame ▸ ha)).retains hr hs'

end PointsTo.State
