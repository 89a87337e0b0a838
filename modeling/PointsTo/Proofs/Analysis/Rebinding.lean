import PointsTo.Proofs.Analysis.Stops
import PointsTo.Proofs.Solver.Delivery

/-! A function that is bound again and again keeps an analysis from coming to its end. -/
namespace PointsTo

/-- The program `f = g; f = f.bind()`. -/
def rebinding : Problem where
  scene := {
    files := #[⟨⟨0⟩, "main", ⟨0⟩, ⟨0⟩, ∅, ∅⟩]
    classes := #[⟨⟨0⟩, "Main", none, ⟨0⟩, none, false, ∅⟩]
    methods := #[
      plainMethod 0 "main" {
        locals := (∅ : NameMap ValueId).insert "f" ⟨0⟩
        stmts := #[⟨0⟩, ⟨1⟩] },
      plainMethod 1 "g" {}]
    stmts := #[⟨⟨0⟩, .assign ⟨0⟩ ⟨1⟩⟩, ⟨⟨0⟩, .assign ⟨0⟩ ⟨2⟩⟩]
    values := #[.var "f" .any, .functionRef ⟨1⟩, .instanceCall ⟨0⟩ ⟨"Function", "bind"⟩ []] }

namespace FlowGraph

variable {g : FlowGraph} {n : NodeId} {stmt : Option StmtId}

theorem achieves_lift_bind {α β : Type} {x : Except Fault α} {a : α} {f : α → Growing β}
    {R : β → FlowGraph → Prop} (hx : x = .ok a) (h : Achieves (f a) g R) :
    Achieves (liftM x >>= f) g R := by
  rw [hx]
  exact h

theorem achieves_intern {c : ContextId} {l : Location} {kind : NodeKind}
    (h : g.interned[(c, l)]? = none) : Achieves (Growing.intern c l stmt kind) g fun m g' =>
      m = ⟨g.nodes.size⟩ ∧ g' = g.withNode { context := c, location := l, stmt, kind } := by
  refine achieves_modifyGet ?_
  simp [h, withNode]

theorem achieves_addEdge_new {a b : NodeId} {k : EdgeKind} (hnew : g.hasEdge a b k = false)
    (ha : a.index < g.nodes.size) (hb : b.index < g.nodes.size) :
    Achieves (Growing.addEdge a b k stmt) g fun _ g' => g' = g.withEdge a b k stmt := by
  refine (achieves_addEdge ha hb).mono ?_
  rintro _ g' (⟨-, hedge, -⟩ | ⟨-, -, hg'⟩)
  · cases hnew.symm.trans hedge
  · exact hg'

/-- A node that is yet to come has no edges. -/
theorem EdgeTables.hasEdge_size (h : g.EdgeTables) (b : NodeId) (k : EdgeKind) :
    g.hasEdge ⟨g.nodes.size⟩ b k = false := by
  rw [← Bool.not_eq_true, h.hasEdge_iff]
  exact fun he => Nat.lt_irrefl _ (h.lt_size he).1

theorem achieves_value (h : g.interned[(ContextId.empty, Location.value ⟨0⟩)]? = some n) :
    Achieves (Growing.value rebinding.scene .empty ⟨0⟩ stmt) g fun m g' => m = n ∧ g' = g := by
  refine achieves_lift_bind (a := .var "f" .any) rfl ?_
  refine achieves_bind (Q := fun k g' => k = (.empty, ⟨0⟩) ∧ g' = g) ?_ ?_
  · exact achieves_lift_bind (a := none) rfl (achieves_pure ⟨rfl, rfl⟩)
  · rintro _ _ ⟨rfl, rfl⟩
    refine achieves_get_bind ?_
    rw [h]
    exact achieves_pure ⟨rfl, rfl⟩

end FlowGraph

namespace Run

section Rules

variable {α β : Type} {s : State} {n : NodeId} {R : β → State → Prop} {f : α → Run β}

theorem achieves_grow_bind {m : Growing α} {Q : α → FlowGraph → Prop} (hm : Achieves m s.graph Q)
    (h : ∀ a g, Q a g → Achieves (f a) { s with graph := g } R) : Achieves (grow m >>= f) s R := by
  obtain ⟨a, g, hrun, hg⟩ := hm
  refine achieves_bind (Q := fun b s' => b = a ∧ s' = { s with graph := g }) ⟨a, _, ?_, rfl, rfl⟩ ?_
  · simp only [grow, hrun]
  · rintro _ _ ⟨rfl, rfl⟩
    exact h _ g hg

theorem bind_ok {m : Run α} {a : α} {s' : State} (h : m s = .ok a s') : (m >>= f) s = f a s' := by
  simp only [Bind.bind, EStateM.bind, h]

end Rules

variable {s : State} {o : NodeId}

/-- What the call `f.bind()` is after it was resolved. -/
structure IsBindCall (site : StaticSite) : Prop where
  signature : site.signature = ⟨Platform.functionClass, "bind"⟩
  args : site.args = some []
  target : site.target = some ⟨0⟩
  callee : site.callee = ⟨1⟩

/-- What the call `f.bind()` is before. -/
structure IsBindSite (site : DynamicSite) : Prop where
  signature : site.signature = ⟨Platform.functionClass, "bind"⟩
  args : site.args = some []
  target : site.target = some ⟨0⟩

/-- Whether `o` is a version of `g` that was not bound yet; the second node is that of `f`. -/
structure CanBind (o : NodeId) (g : FlowGraph) : Prop where
  consistent : g.Consistent rebinding.scene
  target : g.interned[(ContextId.empty, Location.value ⟨0⟩)]? = some ⟨1⟩
  function : ∃ a info, g.At o a ∧ a.function? = some info ∧ info.method = ⟨1⟩
  unbound : ∀ i, g.interned[(ContextId.empty, Location.bound o i)]? = none

/-- The graph with one more function, which `f` points to. -/
def rebound (g : FlowGraph) (o : NodeId) (site : StaticSite) : FlowGraph :=
  (g.withNode {
    context := .empty, location := .bound o site.id, stmt := none
    kind := .function { method := site.callee, binding := some ⟨site.id, 0, .empty⟩ } }).withEdge
      ⟨g.nodes.size⟩ ⟨1⟩ .address site.stmt

/-- How a state changes when the call `f.bind()` is resolved for `o`. -/
def Rebound (o : NodeId) (s s' : State) : Prop :=
  ∃ site calls, IsBindCall site ∧ s.calls.sites.Grows calls.sites ∧ s' = { s with
    calls, graph := rebound s.graph o site, resolved := s.resolved.insert (⟨0⟩, .empty, o) }

section Call

variable {site : StaticSite} (h : CanBind o s.graph) (hsite : IsBindCall site)

include hsite

theorem accepts_storage (object : Option NodeId) :
    Model.accepts rebinding site object .storage s = .ok false s := by
  rw [Model.accepts, Model.apiOf?, hsite.callee]
  rfl

include h

theorem reflective?_eq : Model.reflective? site (some o) s = .ok (some .functionBind) s := by
  obtain ⟨a, info, ha, hfun, -⟩ := h.function
  rw [Model.reflective?, bind_ok (node_eq ha), Node.isFunction, hfun, hsite.signature]
  rfl

/-- A call of `bind` on a function is left to the model of such calls. -/
theorem find?_eq : Model.find? rebinding site (some o) s = .ok (some .reflection) s := by
  have haccepts : Model.accepts rebinding site (some o) .reflection s = .ok true s := by
    rw [Model.accepts, bind_ok (reflective?_eq h hsite)]
    rfl
  rw [Model.find?, Model.all, List.findM?, bind_ok (accepts_storage hsite _), List.findM?]
  exact bind_ok haccepts

theorem achieves_bindOnce : Achieves (Model.Reflection.bind rebinding site .empty o) s fun _ s' =>
    s' = { s with graph := rebound s.graph o site } := by
  have hone : 1 < s.graph.nodes.size := by
    obtain ⟨a, ha, -⟩ := (h.consistent.interned _ _ _).1 h.target
    exact ha.lt_size
  rw [Model.Reflection.bind, targetNode, hsite.target, bind_assoc]
  refine achieves_grow_bind (FlowGraph.achieves_value h.target) ?_
  rintro _ _ ⟨rfl, rfl⟩
  rw [pure_bind]
  simp only [argumentAt, hsite.args, Option.getD_some, List.getElem?_nil, pure_bind,
    List.length_nil, Nat.zero_sub]
  refine achieves_grow_bind (FlowGraph.achieves_intern (h.unbound _)) ?_
  rintro _ _ ⟨rfl, rfl⟩
  rw [address, bind_assoc]
  have hfree := h.consistent.tables.hasEdge_size ⟨1⟩ .address
  refine achieves_grow_bind (FlowGraph.achieves_addEdge_new hfree ?_ ?_) ?_
  · simp [FlowGraph.withNode]
  · simp only [FlowGraph.withNode, Array.size_push]
    omega
  · rintro _ _ rfl
    exact achieves_pure rfl

theorem achieves_call : Achieves (call rebinding site .empty (some o)) s fun _ s' =>
    s' = { s with graph := rebound s.graph o site } := by
  refine achieves_bind_ok (find?_eq h hsite) ?_
  refine achieves_bind_ok (reflective?_eq h hsite) ?_
  exact achieves_bindOnce h hsite

end Call

section Dispatch

variable {site : DynamicSite} (h : CanBind o s.graph) (hs : s.calls.sites.Valid)
  (hsite : IsBindSite site)

include h hs hsite

/-- The call makes one more function. -/
theorem achieves_callOn (hknown : s.calls.sites.dynamic? site.id = some site) :
    Achieves (callOn rebinding site .empty o true ⟨1⟩) s fun _ s' => ∃ resolved calls,
      IsBindCall resolved ∧ s.calls.sites.Grows calls.sites ∧
        s' = { s with calls, graph := rebound s.graph o resolved } := by
  obtain ⟨i, hi⟩ : ∃ i, (s.calls.sites.resolve site.id ⟨1⟩).1 = some i := by
    unfold SiteTable.resolve
    split
    · exact ⟨_, rfl⟩
    · rw [hknown]
      exact ⟨_, rfl⟩
  obtain ⟨site', hsite', hresolved⟩ := SiteTable.static?_of_resolve hs hi
  cases Option.some.inj (hsite'.symm.trans hknown)
  have hcall : IsBindCall (site.resolved i ⟨1⟩) :=
    ⟨hsite.signature, hsite.args, hsite.target, rfl⟩
  let calls := { s.calls with sites := (s.calls.sites.resolve site.id ⟨1⟩).2 }
  refine achieves_bind (Q := fun i? s₁ => i? = some i ∧ s₁ = { s with calls })
    (achieves_modifyGet ⟨hi, rfl⟩) ?_
  rintro _ _ ⟨rfl, rfl⟩
  refine achieves_get_bind (achieves_get_bind ?_)
  simp only [calls, hresolved]
  refine Achieves.mono (achieves_call (s := { s with calls }) h hcall) ?_
  rintro _ _ rfl
  exact ⟨_, calls, hcall, SiteTable.resolve_grows, rfl⟩

omit hs in
theorem callees_eq : callees rebinding site o s = .ok [⟨1⟩] s := by
  obtain ⟨a, info, ha, hfun, hmethod⟩ := h.function
  rw [callees, bind_ok (node_eq ha), hfun]
  simp only [hsite.signature, hmethod]
  rfl

theorem achieves_dispatch (hknown : s.calls.sites.dynamic? ⟨0⟩ = some site)
    (hnew : (⟨0⟩, .empty, o) ∉ s.resolved) :
    Achieves (dispatch rebinding ⟨0⟩ .empty o) s fun _ s' => Rebound o s s' := by
  obtain ⟨a, info, ha, hfun, -⟩ := h.function
  have hbinds : binds site a = true := by
    rw [binds, Node.isFunction, hfun, hsite.signature]
    rfl
  let s₁ := { s with resolved := s.resolved.insert (⟨0⟩, .empty, o) }
  refine achieves_bind (Q := fun fresh s' => fresh = true ∧ s' = s₁)
    (achieves_modifyGet ⟨?_, rfl⟩) ?_
  · rw [Bool.not_eq_true', ← Bool.not_eq_true, Std.TreeSet.contains_iff_mem]
    exact hnew
  rintro _ _ ⟨rfl, rfl⟩
  refine achieves_get_bind ?_
  simp only [s₁, hknown]
  refine achieves_bind_ok (callees_eq (s := s₁) h hsite) ?_
  refine achieves_bind_ok (node_eq (s := s₁) ha) ?_
  rw [hbinds]
  rw [← hs.dynamic_id hknown] at hknown
  refine achieves_bind (achieves_mapM_one (achieves_callOn (s := s₁) h hs hsite hknown)) ?_
  rintro _ _ ⟨resolved, calls, hcall, hgrows, rfl⟩
  exact achieves_pure ⟨resolved, calls, hcall, hgrows, rfl⟩

/-- The variable `f` is told about `o`. -/
theorem achieves_receive {a : Node} {info : PointerInfo} (ha : s.graph.At ⟨1⟩ a)
    (hp : a.pointer? = some info) (hdynamic : info.dynamicCalls = [(⟨0⟩, .empty)])
    (hunknown : info.unknownCalls = []) (hinstance : info.instanceCalls = [])
    (hknown : s.calls.sites.dynamic? ⟨0⟩ = some site) (hnew : (⟨0⟩, .empty, o) ∉ s.resolved) :
    Achieves (receive rebinding ⟨1⟩ [o]) s fun _ s' => Rebound o s s' := by
  refine achieves_bind_ok (node_eq ha) ?_
  rw [hp]
  refine achieves_bind (achieves_mapM_one ?_) fun _ _ hs' => achieves_pure hs'
  obtain ⟨b, f, hb, hfun, -⟩ := h.function
  have hobject : b.isObject = true := by
    unfold Node.function? at hfun
    unfold Node.isObject
    split at hfun <;> simp_all
  refine achieves_bind_ok (node_eq hb) ?_
  rw [hobject]
  simp only [hdynamic, hunknown, hinstance, List.mapM_nil, pure_bind, Bool.not_true,
    Bool.false_eq_true, if_false]
  exact achieves_bind (achieves_mapM_one (achieves_dispatch h hs hsite hknown hnew))
    fun _ _ hs' => achieves_pure hs'

end Dispatch

end Run

/-- The function that a bound one was made of. -/
def Location.origin? : Location → Option NodeId
  | .bound origin _ => some origin
  | _ => none

/-- The node that was made last. -/
def FlowGraph.newest (g : FlowGraph) : NodeId := ⟨g.nodes.size - 1⟩

/-- Between two rounds: the newest function is about to reach `f` and the call `f.bind()`. -/
structure State.Rebinds (s : State) : Prop extends s.Between rebinding where
  idle : s.hasPending = false
  postponed : s.unresolved = #[]
  site : ∃ site, s.calls.sites.dynamic? ⟨0⟩ = some site ∧ Run.IsBindSite site
  target : s.graph.interned[(ContextId.empty, Location.value ⟨0⟩)]? = some ⟨1⟩
  calls : ∃ a info, s.graph.At ⟨1⟩ a ∧ a.fieldRefs = #[] ∧ a.pointer? = some info ∧
    info.dynamicCalls = [(⟨0⟩, .empty)] ∧ info.unknownCalls = [] ∧ info.instanceCalls = []
  sink : s.graph.copySuccessors ⟨1⟩ = []
  function : ∃ a info, s.graph.At s.graph.newest a ∧ a.function? = some info ∧ info.method = ⟨1⟩
  edge : ∃ i e, s.graph.addressEdges.toList.drop s.cursor = [i] ∧ s.graph.edge? i = some e ∧
    e.source = s.graph.newest ∧ e.target = ⟨1⟩
  origins : ∀ n a o, s.graph.At n a → a.location.origin? = some o → o.index < s.graph.newest.index
  resolved : ∀ d ∈ s.resolved, d.2.2.index < s.graph.newest.index
  older : ∀ o, s.points.Has ⟨1⟩ o → o.index < s.graph.newest.index

/-- The state after the newest function was added to the set of `f`. -/
def State.told (s : State) : State :=
  { s with
    cursor := s.cursor + 1, points := (s.points.add ⟨1⟩ s.graph.newest).2.flush ⟨1⟩
    retrigger := ∅, updates := ∅ }

theorem State.Rebinds.frame {s : State} (h : s.Rebinds) (rounds : Nat) :
    ({ s with rounds } : State).Rebinds :=
  { h with toBetween := h.toBetween.withRounds rounds }

namespace Run
open State

variable {s : State}

theorem achieves_expand_idle {p : Problem} {work : Nat} (h : s.agenda.toList = []) :
    Achieves (expand p (work + 1)) s fun reached s' => reached = false ∧ s' = s := by
  have hpop := (Queue.pop?_eq_none_iff _).2 h
  refine achieves_bind (Q := fun changed s' => changed = false ∧ s' = s) ?_ ?_
  · rw [drainAgenda]
    refine achieves_get_bind ?_
    rw [hpop]
    exact achieves_pure ⟨rfl, rfl⟩
  · rintro _ _ ⟨rfl, rfl⟩
    exact achieves_pure ⟨rfl, rfl⟩

theorem canBind_of_rebinds (h : s.Rebinds) : CanBind s.graph.newest s.graph where
  consistent := h.graph
  target := h.target
  function := h.function
  unbound i := by
    rw [← Option.not_isSome_iff_eq_none, Option.isSome_iff_exists]
    rintro ⟨n, hn⟩
    obtain ⟨a, ha, -, hl⟩ := (h.graph.interned _ _ _).1 hn
    exact Nat.lt_irrefl _ (h.origins n a _ ha (by rw [hl]; rfl))

/-- The solver tells `f` about the newest function. -/
theorem achieves_solve_rebinds (h : s.Rebinds) :
    Achieves (solve rebinding) s fun found s' => found.changed = true ∧
      found.receivers = [(⟨1⟩, [s.graph.newest])] ∧ s' = s.told := by
  obtain ⟨i, e, hdrop, he, hsource, htarget⟩ := h.edge
  obtain ⟨a, info, ha, hrefs, hp, hdynamic, -⟩ := h.calls
  have hidle := h.idle
  simp only [hasPending, Bool.or_eq_false_iff, Bool.not_eq_false'] at hidle
  have hretrigger : s.retrigger.toList = [] :=
    List.isEmpty_iff.1 (Std.TreeSet.isEmpty_toList.trans hidle.1.2)
  have hreceiver : s.graph.IsReceiver ⟨1⟩ :=
    ⟨h.sink, a, info, ha, hrefs, hp, by simp [PointerInfo.hasCalls, hdynamic]⟩
  obtain ⟨_, v', hrun, told, htold, rfl⟩ := Solver.achieves_solve (v := s.solver) hreceiver rfl rfl
    hdrop he hsource htarget (fun hold => Nat.lt_irrefl _ (h.older _ hold)) (h.ready.settled ⟨1⟩)
  refine achieves_bind (Q := fun r s₁ => r = ([], []) ∧
    s₁ = { s with retrigger := ∅, updates := ∅ }) (achieves_modifyGet ⟨?_, rfl⟩) ?_
  · rw [hretrigger, updatesIn_of_isEmpty hidle.2]
  rintro _ _ ⟨rfl, rfl⟩
  refine ⟨⟨true, [(⟨1⟩, [s.graph.newest])]⟩, _, ?_, rfl, rfl, rfl⟩
  simp only [solver] at hrun
  simp only [solveWith, hrun, Solver.telling]
  rw [← htold]
  rfl

/-- A round tells `f` about the newest function, of which the call `f.bind()` makes another one. -/
theorem achieves_round_rebound (work : Nat) (h : s.Rebinds) :
    Achieves (round rebinding (work + 1)) s fun again s' => again = true ∧
      ∃ s₀ : State, s₀.Rebinds ∧ Rebound s₀.graph.newest s₀.told s' := by
  refine achieves_bind (Q := fun _ s₀ => s₀.Rebinds) (achieves_modify (h.frame _)) ?_
  intro _ s₀ h₀
  have hidle := h₀.idle
  simp only [hasPending, Bool.or_eq_false_iff, Bool.not_eq_false'] at hidle
  obtain ⟨site, hknown, hsite⟩ := h₀.site
  obtain ⟨a, info, ha, -, hp, hdynamic, hunknown, hinstance⟩ := h₀.calls
  have hnew : (⟨0⟩, .empty, s₀.graph.newest) ∉ s₀.told.resolved :=
    fun hold => Nat.lt_irrefl _ (h₀.resolved _ hold)
  have hcan : CanBind s₀.graph.newest s₀.told.graph := canBind_of_rebinds h₀
  have hreceive := achieves_receive (s := s₀.told) hcan h₀.sites hsite ha hp hdynamic hunknown
    hinstance hknown hnew
  refine achieves_bind (achieves_expand_idle (Queue.isEmpty_iff.1 hidle.1.1)) ?_
  rintro _ _ ⟨rfl, rfl⟩
  refine achieves_bind (achieves_solve_rebinds h₀) ?_
  rintro found _ ⟨hchanged, hreceivers, rfl⟩
  rw [hreceivers]
  refine achieves_forM_one_bind (achieves_bind (achieves_discard hreceive) ?_)
  intro _ s₁ h₁
  have hpostponed : s₁.unresolved = #[] := by
    obtain ⟨_, _, -, -, rfl⟩ := h₁
    exact h₀.postponed
  refine achieves_bind (Q := fun _ s' => s' = s₁) ?_ ?_
  · refine achieves_get_bind ?_
    rw [hpostponed]
    exact achieves_pure rfl
  rintro _ _ rfl
  refine achieves_get_bind (achieves_pure ⟨?_, _, h₀, h₁⟩)
  simp [hchanged]

variable {g : FlowGraph} {o : NodeId} {site : StaticSite}

theorem newest_rebound : (rebound g o site).newest = ⟨g.nodes.size⟩ := by
  simp [FlowGraph.newest, rebound, FlowGraph.withEdge, FlowGraph.withNode]

theorem at_rebound {n : NodeId} {b : Node} : (rebound g o site).At n b ↔ g.At n b ∨
    (n = ⟨g.nodes.size⟩ ∧ b = {
      context := .empty, location := .bound o site.id, stmt := none
      kind := .function { method := site.callee, binding := some ⟨site.id, 0, .empty⟩ } }) :=
  FlowGraph.at_withNode

theorem edge_rebound {x y : NodeId} {k : EdgeKind} : (rebound g o site).Edge x y k ↔
    g.Edge x y k ∨ (x = ⟨g.nodes.size⟩ ∧ y = ⟨1⟩ ∧ k = .address) :=
  FlowGraph.edge_withEdge

/-- After the round, the function that was made in it is the newest one. -/
theorem Rebound.rebinds {s' : State} (h : s.Rebinds) (hs' : s'.Between rebinding)
    (hr : Rebound s.graph.newest s.told s') : s'.Rebinds := by
  obtain ⟨site, calls, hcall, hgrows, rfl⟩ := hr
  have hlt : s.graph.newest.index < s.graph.nodes.size := by
    obtain ⟨a, info, ha, -⟩ := h.function
    exact ha.lt_size
  constructor
  case toBetween => exact hs'
  case idle =>
    have hidle := h.idle
    simp only [hasPending, Bool.or_eq_false_iff] at hidle
    simp [hasPending, told, hidle.1.1]
  case postponed => exact h.postponed
  case site =>
    obtain ⟨site', hknown, hsite⟩ := h.site
    exact ⟨site', hgrows.dynamic? hknown, hsite⟩
  case target =>
    obtain ⟨a, ha, hl⟩ := (h.graph.interned _ _ _).1 h.target
    exact (hs'.graph.interned _ _ _).2 ⟨a, at_rebound.2 (.inl ha), hl⟩
  case calls =>
    obtain ⟨a, info, ha, hcalls⟩ := h.calls
    exact ⟨a, info, at_rebound.2 (.inl ha), hcalls⟩
  case sink =>
    refine List.eq_nil_iff_forall_not_mem.2 fun x hx => ?_
    obtain ⟨k, hk, he⟩ := hs'.graph.tables.mem_copySuccessors.1 hx
    rcases edge_rebound.1 he with he | ⟨-, -, rfl⟩
    · have hold := h.graph.tables.mem_copySuccessors.2 ⟨k, hk, he⟩
      rw [h.sink] at hold
      cases hold
    · cases hk
  case function =>
    rw [newest_rebound]
    exact ⟨_, _, at_rebound.2 (.inr ⟨rfl, rfl⟩), rfl, hcall.callee⟩
  case edge =>
    rw [newest_rebound]
    obtain ⟨i, e, hdrop, -⟩ := h.edge
    have hlength : s.graph.addressEdges.toList.length = s.cursor + 1 := by
      have := congrArg List.length hdrop
      simp only [List.length_drop, List.length_cons, List.length_nil] at this
      omega
    have hnext : (s.graph.addressEdges.push ⟨s.graph.edges.size⟩).toList.drop (s.cursor + 1) =
        [⟨s.graph.edges.size⟩] := by
      rw [Array.toList_push]
      exact List.drop_left' hlength
    exact ⟨_, _, hnext, FlowGraph.edge?_withEdge.2 (.inr ⟨rfl, rfl⟩), rfl, rfl⟩
  case origins =>
    rw [newest_rebound]
    intro n a o ha ho
    rcases at_rebound.1 ha with ha | ⟨-, rfl⟩
    · exact Nat.lt_trans (h.origins n a o ha ho) hlt
    · cases ho
      exact hlt
  case resolved =>
    rw [newest_rebound]
    intro d hd
    rcases (mem_insert ..).1 hd with rfl | hd
    · exact hlt
    · exact Nat.lt_trans (h.resolved d hd) hlt
  case older =>
    rw [newest_rebound]
    intro o ho
    rcases ((DiffTable.add_gains ..).has _ _).1 (DiffTable.has_flush.1 ho) with ho | ⟨-, rfl⟩
    · exact Nat.lt_trans (h.older o ho) hlt
    · exact hlt

/-- No round is the last one. -/
theorem achieves_round_rebinds (work : Nat) (h : s.Rebinds) :
    Achieves (round rebinding (work + 1)) s fun again s' => again = true ∧ s'.Rebinds := by
  obtain ⟨again, s', hrun, hagain, s₀, h₀, hr⟩ := achieves_round_rebound work h
  have hs' := ((ensures_round h.toBetween).1 hrun).between
  exact ⟨again, s', hrun, hagain, hr.rebinds h₀ hs'⟩

theorem rounds_rebinds {work fuel : Nat} (h : s.Rebinds) :
    ∃ s', rounds rebinding (work + 1) fuel s = .error .outOfFuel s' := by
  induction fuel generalizing s with
  | zero => exact ⟨s, rfl⟩
  | succ fuel ih =>
    obtain ⟨_, s₁, hrun, rfl, h₁⟩ := achieves_round_rebinds work h
    rw [rounds, bind_ok hrun, if_pos rfl]
    exact ih h₁

end Run

namespace State

variable {s : State}

/-- Decides whether a state is `Rebinds`, of which it is known already that no round is under way. -/
def isRebinding (s : State) : Bool :=
  !s.hasPending && s.unresolved.isEmpty &&
  (s.calls.sites.dynamic? ⟨0⟩).any (fun site =>
    site.signature = ⟨Platform.functionClass, "bind"⟩ ∧ site.args = some [] ∧
      site.target = some ⟨0⟩) &&
  s.graph.interned[(ContextId.empty, Location.value ⟨0⟩)]? = some ⟨1⟩ &&
  s.graph.nodes[1]?.any (fun a => a.fieldRefs.isEmpty && a.pointer?.any fun info =>
    info.dynamicCalls = [(⟨0⟩, .empty)] ∧ info.unknownCalls = [] ∧ info.instanceCalls = []) &&
  s.graph.copySuccessors ⟨1⟩ = [] &&
  s.graph.nodes[s.graph.newest.index]?.any (·.function?.any (·.method = ⟨1⟩)) &&
  (s.graph.addressEdges.toList.drop s.cursor).length = 1 &&
  (s.graph.addressEdges.toList.drop s.cursor).all (fun i => (s.graph.edge? i).any fun e =>
    e.source = s.graph.newest ∧ e.target = ⟨1⟩) &&
  s.graph.nodes.toList.all (·.location.origin?.all (·.index < s.graph.newest.index)) &&
  s.resolved.toList.all (·.2.2.index < s.graph.newest.index) &&
  (s.points.collection.enumerate (s.points.get ⟨1⟩)).all (·.index < s.graph.newest.index)

theorem rebinds_of_isRebinding (hs : s.Between rebinding) (h : s.isRebinding = true) :
    s.Rebinds := by
  simp only [isRebinding, Bool.and_eq_true, Bool.not_eq_true', Array.isEmpty_iff, decide_eq_true_eq,
    Option.any_eq_true, List.all_eq_true, Option.all_eq_true] at h
  obtain ⟨⟨⟨⟨⟨⟨⟨⟨⟨⟨⟨hidle, hpostponed⟩, site, hsite, hsig, hargs, htarget⟩, hinterned⟩, a, ha, hrefs,
    info, hinfo, hcalls⟩, hsink⟩, b, hb, f, hf, hmethod⟩, hlength⟩, hedge⟩, horigins⟩, hresolved⟩,
    holder⟩ := h
  obtain ⟨i, hi⟩ := List.length_eq_one_iff.1 hlength
  obtain ⟨e, he, hends⟩ := hedge i (by simp [hi])
  exact {
    toBetween := hs
    idle := hidle
    postponed := hpostponed
    site := ⟨site, hsite, hsig, hargs, htarget⟩
    target := hinterned
    calls := ⟨a, info, ha, hrefs, hinfo, hcalls⟩
    sink := hsink
    function := ⟨b, f, hb, hf, hmethod⟩
    edge := ⟨i, e, hi, he, hends⟩
    origins := fun n a o ha ho =>
      horigins a (Array.mem_toList_iff.2 (Array.mem_of_getElem? ha)) o ho
    resolved := fun d hd => hresolved d (Std.TreeSet.mem_toList.2 hd)
    older := fun o ho => holder o (Collection.mem_enumerate.2 ho) }

end State

/-- The first round binds `g` itself. -/
theorem exists_rebinds : ∃ s₀ s₁, rebinding.start = .ok () s₀ ∧
    Run.round rebinding 2 s₀ = .ok true s₁ ∧ s₁.Rebinds := by
  obtain ⟨_, s₀, hstart, hfirst⟩ := exists_of_endsWith (r := rebinding.start)
    (q := fun _ s => endsWith (Run.round rebinding 2 s) fun again s₁ => again && s₁.isRebinding)
    (by decide +kernel)
  obtain ⟨again, s₁, hrun, htest⟩ := exists_of_endsWith hfirst
  obtain ⟨rfl, hrebinding⟩ := Bool.and_eq_true_iff.1 htest
  have hs₁ := ((Run.ensures_round (Problem.between_of_start hstart)).1 hrun).between
  exact ⟨s₀, s₁, hstart, hrun, State.rebinds_of_isRebinding hs₁ hrebinding⟩

/-- However many rounds it is given, an analysis of `f = g; f = f.bind()` does not end. -/
theorem Problem.analyze_rebinding :
    ¬ ∃ fuel, ∀ s, rebinding.analyze fuel ≠ .error .outOfFuel s := by
  rintro ⟨fuel, hends⟩
  obtain ⟨s₀, s₁, hstart, hrun, h₁⟩ := exists_rebinds
  -- it does not even with two more rounds, the first of which leads to `s₁`
  obtain ⟨s, hs⟩ : ∃ s, rebinding.analyze (fuel + 2) = .error .outOfFuel s := by
    have hsame : Run.round rebinding (fuel + 2) s₀ = .ok true s₁ := by
      rw [← hrun, Nat.add_comm]
      exact Run.outlasts_round (by simp [hrun])
    rw [analyze_of_start hstart, Run.rounds, Run.bind_ok hsame, if_pos rfl]
    exact Run.rounds_rebinds h₁
  rw [analyze_add hends] at hs
  exact hends s hs

end PointsTo
