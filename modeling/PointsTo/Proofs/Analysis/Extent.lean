import Mathlib.Order.Defs.PartialOrder
import PointsTo.Analysis.Rounds
import PointsTo.Proofs.Call.Sites
import PointsTo.Proofs.Context.Table
import PointsTo.Proofs.Flow.Growing
import PointsTo.Proofs.Sets
import PointsTo.Proofs.Summary.Determined

/-! Whatever an analysis records refers to nodes, call sites, contexts and methods that exist. -/
namespace PointsTo

/-- How many nodes, call sites and contexts there are. -/
structure Extent where
  nodes : Nat
  sites : Nat
  contexts : Nat

/-- The context of a part of the analysis and, within a call, its site. -/
structure Caller where
  context : ContextId
  site : Option SiteId := none

/-- What an analysis finds out and never takes back. -/
inductive Finding where
  | instantiated (a : Activation)
  | points (n o : NodeId)
  | resolved (d : Dispatch)
  | fieldDispatched (d : Dispatch)

namespace Run

variable {order : Enumeration} {updates : Std.TreeMap NodeId ObjectSet}

theorem mem_updatesIn {n : NodeId} {set : ObjectSet} :
    (n, set) ∈ updatesIn order updates ↔ updates[n]? = some set := by
  simp only [updatesIn, List.mem_filterMap, Option.map_eq_some_iff, Prod.mk.injEq]
  constructor
  · rintro ⟨m, -, _, hset, rfl, rfl⟩
    exact hset
  · intro hset
    refine ⟨n, (order.perm _).mem_iff.2 ?_, set, hset, rfl, rfl⟩
    exact Std.TreeMap.mem_keys.2 (Std.TreeMap.mem_iff_isSome_getElem?.2 (by simp [hset]))

theorem updatesIn_of_isEmpty (h : updates.isEmpty = true) : updatesIn order updates = [] := by
  rw [List.eq_nil_iff_forall_not_mem]
  rintro ⟨n, set⟩ hmem
  have hset := mem_updatesIn.1 hmem
  rw [eq_empty_of_isEmpty_map h] at hset
  simp at hset

end Run

/-- Whether the scene has a method. -/
def Problem.HasMethod (p : Problem) (m : MethodId) : Prop := m.index < p.scene.methods.size

/-- Whether the scene has a method with a body. -/
def Problem.HasBody (p : Problem) (m : MethodId) : Prop :=
  ∃ decl, p.scene.method m = .ok decl ∧ decl.hasBody = true

/-- Whether a survey of a method has come to the given end. -/
def Problem.Surveys (p : Problem) (m : MethodId) (v : Survey) : Prop :=
  ∃ calls log, calls.Listed p.scene ∧
    Survey.ofMethod p.scene p.settings.explains m calls log = .ok () v

theorem Problem.Surveys.static {p : Problem} {m : MethodId} {v : Survey} (h : p.Surveys m v) :
    ∀ i ∈ v.summary.staticCalls, v.calls.Lists p.scene m i := by
  obtain ⟨calls, log, hl, hrun⟩ := h
  exact fun i hi => (((Surveying.adds_body _ hl).1 hrun).static i hi).resolve_left (by simp)

theorem Problem.Surveys.alike {p : Problem} {m : MethodId} {v v' : Survey} (h : p.Surveys m v)
    (h' : p.Surveys m v') : v.Alike p.scene m v' := by
  obtain ⟨calls, log, hcalls, hrun⟩ := h
  obtain ⟨calls', log', hcalls', hrun'⟩ := h'
  exact Survey.alike_of_ofMethod hcalls hcalls' hrun hrun'

theorem Problem.hasMethod_of_method {p : Problem} {m : MethodId} {decl : MethodDecl}
    (h : p.scene.method m = .ok decl) : p.HasMethod m :=
  (Array.getElem?_eq_some_iff.1 (Ref.fetch_eq_ok_iff.1 h)).1

namespace Extent

instance : Preorder Extent where
  le e e' := e.nodes ≤ e'.nodes ∧ e.sites ≤ e'.sites ∧ e.contexts ≤ e'.contexts
  le_refl _ := ⟨le_rfl, le_rfl, le_rfl⟩
  le_trans _ _ _ h h' := ⟨h.1.trans h'.1, h.2.1.trans h'.2.1, h.2.2.trans h'.2.2⟩

/-- The call sites and contexts that calls are attached under. -/
def HasCall (e : Extent) (d : SiteId × ContextId) : Prop :=
  d.1.index < e.sites ∧ d.2.index < e.contexts

def HasDispatch (e : Extent) (d : Dispatch) : Prop :=
  e.HasCall (d.1, d.2.1) ∧ d.2.2.index < e.nodes

def HasActivation (p : Problem) (e : Extent) (a : Activation) : Prop :=
  a.1.index < e.contexts ∧ p.HasMethod a.2

/-- The items that contexts are made of under the policy of the problem. -/
def HasItem (p : Problem) (e : Extent) : ContextItem → Prop
  | .callSite site callee => site.index < e.sites ∧ p.HasMethod callee
  | .object _ => p.settings.policy = .object
  | .function m => p.HasMethod m

def HasFinding (p : Problem) (e : Extent) : Finding → Prop
  | .instantiated a => e.HasActivation p a
  | .points n o => n.index < e.nodes ∧ o.index < e.nodes
  | .resolved d | .fieldDispatched d => e.HasDispatch d

def Knows (e : Extent) (k : Caller) : Prop :=
  k.context.index < e.contexts ∧ ∀ i ∈ k.site, i.index < e.sites

variable {p : Problem} {e e' : Extent} {x : ContextItem}

theorem HasCall.mono {d : SiteId × ContextId} (hd : e.HasCall d) (h : e ≤ e') : e'.HasCall d :=
  ⟨lt_of_lt_of_le hd.1 h.2.1, lt_of_lt_of_le hd.2 h.2.2⟩

theorem HasDispatch.mono {d : Dispatch} (hd : e.HasDispatch d) (h : e ≤ e') : e'.HasDispatch d :=
  ⟨hd.1.mono h, lt_of_lt_of_le hd.2 h.1⟩

theorem HasActivation.mono {a : Activation} (ha : e.HasActivation p a) (h : e ≤ e') :
    e'.HasActivation p a :=
  ⟨lt_of_lt_of_le ha.1 h.2.2, ha.2⟩

theorem HasItem.mono (hx : e.HasItem p x) (h : e ≤ e') : e'.HasItem p x := by
  cases x with
  | callSite => exact ⟨lt_of_lt_of_le hx.1 h.2.1, hx.2⟩
  | object => exact hx
  | function => exact hx

theorem Knows.mono {k : Caller} (hk : e.Knows k) (h : e ≤ e') : e'.Knows k :=
  ⟨lt_of_lt_of_le hk.1 h.2.2, fun i hi => lt_of_lt_of_le (hk.2 i hi) h.2.1⟩

/-- A call is made in the context of its caller. -/
theorem Knows.at_site {c : ContextId} {i : SiteId} {i? : Option SiteId} (hk : e.Knows ⟨c, i?⟩)
    (hi : i.index < e.sites) : e.Knows ⟨c, some i⟩ :=
  ⟨hk.1, fun _ hj => Option.some.inj hj ▸ hi⟩

theorem hasItem_of_item? {site : SiteId} {object : Option NodeId} {callee : MethodId}
    (hsite : site.index < e.sites) (hcallee : p.HasMethod callee)
    (hx : p.settings.policy.item? site object callee = some x) : e.HasItem p x := by
  unfold Policy.item? at hx
  split at hx
  · cases hx
    exact ⟨hsite, hcallee⟩
  · next hpolicy =>
    obtain ⟨o, -, rfl⟩ := Option.map_eq_some_iff.1 hx
    exact hpolicy
  · cases hx
    exact hcallee

theorem hasItem_of_entryItem? {entry : MethodId} (hentry : p.HasMethod entry)
    (hx : p.settings.policy.entryItem? entry = some x) : e.HasItem p x := by
  unfold Policy.entryItem? at hx
  split at hx
  · cases hx
    exact hentry
  · cases hx

end Extent

namespace State

variable {s s' s'' : State}

def extent (s : State) : Extent where
  nodes := s.graph.nodes.size
  sites := s.calls.sites.sites.size
  contexts := s.contexts.contexts.size

def Holds (s : State) : Finding → Prop
  | .instantiated a => a ∈ s.instantiated
  | .points n o => s.points.Has n o
  | .resolved d => d ∈ s.resolved
  | .fieldDispatched d => d ∈ s.fieldDispatched

/-- Whether more is known in the second state. -/
def Learns (s s' : State) : Prop := ∃ f, s'.Holds f ∧ ¬ s.Holds f

/-- Nothing that was found out or made before is lost. -/
structure Precedes (s s' : State) : Prop where
  extent : s.extent ≤ s'.extent
  holds : ∀ f, s.Holds f → s'.Holds f

theorem Precedes.refl (s : State) : s.Precedes s := ⟨le_rfl, fun _ h => h⟩

theorem Precedes.trans (h : s.Precedes s') (h' : s'.Precedes s'') : s.Precedes s'' :=
  ⟨h.extent.trans h'.extent, fun f hf => h'.holds f (h.holds f hf)⟩

theorem Precedes.learns (h : s.Precedes s') (h' : s'.Learns s'') : s.Learns s'' := by
  obtain ⟨f, hf, hnew⟩ := h'
  exact ⟨f, hf, fun hold => hnew (h.holds f hold)⟩

theorem Learns.precedes (h : s.Learns s') (h' : s'.Precedes s'') : s.Learns s'' := by
  obtain ⟨f, hf, hnew⟩ := h
  exact ⟨f, h'.holds f hf, hnew⟩

/-- Whether a method with a summary is static and hands out an object that it keeps. -/
def Shares (p : Problem) (s : State) (m : MethodId) (shared : Bool) : Prop :=
  ∃ decl summary, p.scene.method m = .ok decl ∧ s.summaries[m]? = some summary ∧
    shared = (decl.isStatic && summary.sharesResult)

/-- The summary and the captures of a method are those of a survey of it. -/
def Described (p : Problem) (s : State) (m : MethodId) (summary : Summary) : Prop :=
  ∃ v, p.Surveys m v ∧ v.summary = summary ∧ v.captures = (s.captures[m]?).getD [] ∧
    v.calls.Grows p.scene s.calls

/-- The calls of a method that wait for objects are calls on values. -/
theorem Described.waiting {p : Problem} {m : MethodId} {summary : Summary}
    (h : s.Described p m summary) {i : SiteId} (hi : summary.Waits i) :
    ∃ site, s.calls.sites.dynamic? i = some site ∧ site.IsPlain m := by
  obtain ⟨v, hv, rfl, -, hcalls⟩ := h
  obtain ⟨site, -, hsite, hplain, -⟩ := (hv.alike hv).waiting i hi
  exact ⟨site, hcalls.sites.dynamic? hsite, hplain⟩

/-- What is known of methods comes from their summaries. -/
structure Surveyed (p : Problem) (s : State) : Prop where
  summaries : ∀ m ∈ s.summaries, p.HasBody m
  described : ∀ (m : MethodId) (summary : Summary), s.summaries[m]? = some summary →
    s.Described p m summary
  captures : ∀ m ∈ s.captures, m ∈ s.summaries
  singletons : ∀ (m : MethodId) (shared : Bool), s.singletons[m]? = some shared →
    s.Shares p m shared
  listed : s.calls.Listed p.scene
  static : ∀ (m : MethodId) (summary : Summary), s.summaries[m]? = some summary →
    ∀ i ∈ summary.staticCalls, s.calls.Lists p.scene m i

/-- Whatever is recorded refers to things within an extent. -/
structure Recorded (p : Problem) (e : Extent) (s : State) : Prop extends Surveyed p s where
  items : ∀ x ∈ s.contexts.items, e.HasItem p x
  registered : ∀ n d, s.graph.Registers n d → e.HasCall d
  /-- Calls that wait for the objects of their receiver have a known callee. -/
  waiting : ∀ n d, s.graph.Attaches PointerInfo.instanceCalls n d → s.calls.IsStatic d.1
  agenda : ∀ a ∈ s.agenda.toList, e.HasActivation p a
  instantiated : ∀ a ∈ s.instantiated, e.HasActivation p a
  resolved : ∀ d ∈ s.resolved, e.HasDispatch d
  unresolved : ∀ d ∈ s.unresolved, e.HasDispatch d
  fieldDispatched : ∀ d ∈ s.fieldDispatched, e.HasDispatch d

theorem Recorded.mono {p : Problem} {e e' : Extent} (h : s.Recorded p e) (he : e ≤ e') :
    s.Recorded p e' where
  toSurveyed := h.toSurveyed
  items x hx := (h.items x hx).mono he
  registered n d hd := (h.registered n d hd).mono he
  waiting := h.waiting
  agenda a ha := (h.agenda a ha).mono he
  instantiated a ha := (h.instantiated a ha).mono he
  resolved d hd := (h.resolved d hd).mono he
  unresolved d hd := (h.unresolved d hd).mono he
  fieldDispatched d hd := (h.fieldDispatched d hd).mono he

/-- What the steps of an analysis rely on. -/
structure Sane (p : Problem) (s : State) : Prop where
  graph : s.graph.Consistent p.scene
  indexed : s.graph.Indexed
  sites : s.calls.sites.Valid
  contexts : s.contexts.Valid p.settings.depth
  recorded : s.Recorded p s.extent

/-- The context that a callee has: the empty one if the method hands out one shared object. -/
def CalleeContext (p : Problem) (s : State) (site : SiteId) (caller : ContextId)
    (object : Option NodeId) (callee : MethodId) (c : ContextId) : Prop :=
  ∃ shared, s.Shares p callee shared ∧ c = if shared then .empty else
    (s.contexts.select p.settings.policy p.settings.depth caller site object callee).context

/-- The contexts that an analysis asks for. -/
inductive Chooses (p : Problem) (s : State) : ContextTable.Choice → Prop where
  | enter {m : MethodId} : p.HasMethod m →
      Chooses p s (s.contexts.enter p.settings.policy p.settings.depth m)
  | select {caller : ContextId} {site : SiteId} {callee : MethodId} (object : Option NodeId) :
      s.extent.Knows ⟨caller, site⟩ → p.HasMethod callee →
      Chooses p s (s.contexts.select p.settings.policy p.settings.depth caller site object callee)

theorem Chooses.chosen {p : Problem} {choice : ContextTable.Choice} (h : s.Chooses p choice)
    (hs : s.contexts.Valid p.settings.depth) :
    s.contexts.Chosen p.settings.depth (s.extent.HasItem p) choice := by
  cases h with
  | enter hm =>
    exact (ContextTable.enter_chosen hs).mono fun x => Extent.hasItem_of_entryItem? hm
  | select object hk hcallee =>
    refine (ContextTable.select_chosen hs hk.1).mono fun x => ?_
    exact Extent.hasItem_of_item? (hk.2 _ rfl) hcallee

end State

end PointsTo
