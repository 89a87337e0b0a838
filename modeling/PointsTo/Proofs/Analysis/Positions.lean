import PointsTo.Proofs.Analysis.Changes
import PointsTo.Proofs.Solver.Positions
import PointsTo.Proofs.Summary.Positions

/-! Every position that an analysis stores exists. The basic steps keep it so, and they are made of
changes that take nothing away, also where they fail. -/
namespace PointsTo

section Refs

variable (P : Positions)

/-! What holds of every position that the state of an analysis stores. -/

def ContextItem.Refs : ContextItem → Prop
  | .callSite site callee => P .site site ∧ P .method callee
  | .object heap => P .node heap
  | .function m => P .method m

def Activation.Refs (a : Activation) : Prop := P .context a.1 ∧ P .method a.2

def Dispatch.Refs (d : Dispatch) : Prop := P .site d.1 ∧ P .context d.2.1 ∧ P .node d.2.2

structure State.Refs (s : State) : Prop where
  graph : s.graph.Refs P
  points : s.points.Refs P
  calls : s.calls.Refs P
  items : ∀ x ∈ s.contexts.items, x.Refs P
  summaries : ∀ (m : MethodId) x, s.summaries[m]? = some x → P .method m ∧ x.Refs P
  captures : ∀ (m : MethodId) cs, s.captures[m]? = some cs → P .method m ∧ ∀ c ∈ cs, c.Refs P
  singletons : ∀ (m : MethodId) b, s.singletons[m]? = some b → P .method m
  instantiated : ∀ a ∈ s.instantiated, Activation.Refs P a
  scheduled : ∀ m ∈ s.scheduled, P .method m
  agenda : ∀ a ∈ s.agenda.toList, Activation.Refs P a
  entries : ∀ a ∈ s.entries, Activation.Refs P a
  links : ∀ a ∈ s.links, Activation.Refs P a
  retrigger : ∀ n ∈ s.retrigger, P .node n
  updates : ∀ (n : NodeId) os, s.updates[n]? = some os → P .node n ∧ os.Refs P
  resolved : ∀ d ∈ s.resolved, Dispatch.Refs P d
  unresolved : ∀ d ∈ s.unresolved, Dispatch.Refs P d
  fieldDispatched : ∀ d ∈ s.fieldDispatched, Dispatch.Refs P d
  synthetic : ∀ r ∈ s.synthetic,
    P .site r.1.1 ∧ P .node r.1.2.1 ∧ (∀ x ∈ r.1.2.2, x.Refs P) ∧ P .site r.2

variable {P} {Q : Positions} (hPQ : ∀ t r, P t r → Q t r)

include hPQ

theorem ContextItem.Refs.mono {x : ContextItem} (h : x.Refs P) : x.Refs Q := by
  cases x with
  | callSite site callee => exact h.imp (hPQ _ _) (hPQ _ _)
  | object heap => exact hPQ _ _ h
  | function m => exact hPQ _ _ h

theorem Activation.Refs.mono {a : Activation} (h : Activation.Refs P a) : Activation.Refs Q a :=
  h.imp (hPQ _ _) (hPQ _ _)

theorem Dispatch.Refs.mono {d : Dispatch} (h : Dispatch.Refs P d) : Dispatch.Refs Q d :=
  ⟨hPQ _ _ h.1, hPQ _ _ h.2.1, hPQ _ _ h.2.2⟩

theorem State.Refs.mono {s : State} (h : s.Refs P) : s.Refs Q where
  graph := h.graph.mono hPQ
  points := h.points.mono hPQ
  calls := h.calls.mono hPQ
  items x hx := (h.items x hx).mono hPQ
  summaries m x hx := (h.summaries m x hx).imp (hPQ _ _) (·.mono hPQ)
  captures m cs hcs := (h.captures m cs hcs).imp (hPQ _ _) fun hc c hmem => (hc c hmem).mono hPQ
  singletons m b hb := hPQ _ _ (h.singletons m b hb)
  instantiated a ha := (h.instantiated a ha).mono hPQ
  scheduled m hm := hPQ _ _ (h.scheduled m hm)
  agenda a ha := (h.agenda a ha).mono hPQ
  entries a ha := (h.entries a ha).mono hPQ
  links a ha := (h.links a ha).mono hPQ
  retrigger n hn := hPQ _ _ (h.retrigger n hn)
  updates n os hos := (h.updates n os hos).imp (hPQ _ _) (·.mono hPQ)
  resolved d hd := (h.resolved d hd).mono hPQ
  unresolved d hd := (h.unresolved d hd).mono hPQ
  fieldDispatched d hd := (h.fieldDispatched d hd).mono hPQ
  synthetic r hr :=
    have hr := h.synthetic r hr
    ⟨hPQ _ _ hr.1, hPQ _ _ hr.2.1, fun x hx => (hr.2.2.1 x hx).mono hPQ, hPQ _ _ hr.2.2.2⟩

end Refs

/-- The sizes of the tables of an analysis. -/
def Table.sizes (sites contexts items nodes edges : Nat) : Table → Nat
  | .site => sites
  | .context => contexts
  | .item => items
  | .node => nodes
  | .edge => edges
  | .file | .classDecl | .method | .stmt | .value => 0

abbrev State.sizes (s : State) : Table → Nat :=
  Table.sizes s.calls.sites.sites.size s.contexts.contexts.size s.contexts.items.size
    s.graph.nodes.size s.graph.edges.size

/-- The positions that exist in a state of an analysis. -/
abbrev Problem.Within (p : Problem) (s : State) : Positions := p.scene.Within s.sizes

/-- Which facts about the states of an analysis are asked for. -/
structure Watch where
  /-- That all positions exist. -/
  Strict : Prop
  /-- That the calls made up by models are registered. -/
  Registered : Prop

/-- What is asked of the graph. -/
abbrev Watch.graph (w : Watch) : FlowGraph.Watch := ⟨True, w.Strict⟩

/-- The positions that exist in a state, if they have to. -/
abbrev Problem.Sees (p : Problem) (w : Watch) (s : State) : Positions :=
  fun t r => w.Strict → p.Within s t r

namespace State

/-- Every position that the state stores exists, and no context was found to be unknown. -/
structure InRange (p : Problem) (s : State) : Prop extends s.Refs (p.Within s) where
  places : ∀ r ∈ s.graph.representatives, p.scene.place? r.2 = .ok (some r.1)
  coherent : s.calls.Coherent
  contexts : s.contexts.Valid p.settings.depth
  cursor : s.cursor ≤ s.graph.addressEdges.size
  log : NoUnknownContext s.log

/-- What every step of an analysis keeps. It fails only in the ways that the scene admits. -/
def guard (p : Problem) : Guard Failure State where
  Holds := InRange p
  Later s t := ∀ x, s.sizes x ≤ t.sizes x
  Fails e s := p.scene.Admits e ∧ s.InRange p
  refl _ _ := Nat.le_refl _
  trans h h' x := (h x).trans (h' x)

variable {p : Problem} {s t : State}

theorem within_later (h : (guard p).Later s t) {x : Table} {r : Ref x} (hr : p.Within s x r) :
    p.Within t x r :=
  hr.mono h

theorem inRange_initial (p : Problem) : (initial p.settings).InRange p where
  graph := FlowGraph.inRange_empty (k := fun _ => 0).toRefs.mono fun _ _ h => h.mono fun x => by
    cases x <;> exact Nat.zero_le _
  points := DiffTable.refs_empty _
  calls := CallGraph.inRange_empty (k := fun _ => 0).toRefs.mono fun _ _ h => h.mono fun x => by
    cases x <;> exact Nat.zero_le _
  items := by simp [initial]
  summaries := by simp [initial]
  captures := by simp [initial]
  singletons := by simp [initial]
  instantiated := by simp [initial]
  scheduled := by simp [initial]
  agenda := by simp [initial, Queue.toList]
  entries := by simp [initial]
  links := by simp [initial]
  retrigger := by simp [initial]
  updates := by simp [initial]
  resolved := by simp [initial]
  unresolved := by simp [initial]
  fieldDispatched := by simp [initial]
  synthetic := by simp [initial]
  places := by simp [initial]
  coherent := CallGraph.coherent_empty
  contexts := ContextTable.valid_empty
  cursor := Nat.le_refl _
  log := by simp [initial, NoUnknownContext]

section Parts

variable {g : FlowGraph} {calls : CallGraph}

theorem sizes_graph : g.sizes s.sizes = ({ s with graph := g } : State).sizes := by
  funext x
  cases x <;> rfl

theorem sizes_calls : calls.sites.sizes s.sizes = ({ s with calls } : State).sizes := by
  funext x
  cases x <;> rfl

theorem later_graph (h : s.graph.Widens g) : (guard p).Later s { s with graph := g } := by
  intro x
  cases x with
  | node => exact h.nodes
  | edge => exact h.edges
  | _ => exact Nat.le_refl _

theorem later_calls (h : s.calls.sites.Widens calls.sites) :
    (guard p).Later s { s with calls } := by
  intro x
  cases x with
  | site => exact h
  | _ => exact Nat.le_refl _

theorem InRange.inGraph (h : s.InRange p) : s.graph.InRange p.scene s.sizes where
  toRefs := by
    rw [sizes_graph]
    exact h.graph
  places := h.places

theorem InRange.inCalls (h : s.InRange p) : s.calls.InRange p.scene s.sizes where
  toCoherent := h.coherent
  toRefs := by
    rw [sizes_calls]
    exact h.calls

theorem InRange.withGraph (h : s.InRange p) (hw : s.graph.Widens g) (hg : g.InRange p.scene s.sizes) :
    ({ s with graph := g } : State).InRange p := by
  have hrefs := hg.toRefs
  rw [sizes_graph] at hrefs
  exact { h.toRefs.mono fun _ _ => within_later (later_graph hw) with
    graph := hrefs
    places := hg.places
    coherent := h.coherent
    contexts := h.contexts
    cursor := h.cursor.trans hw.addressEdges
    log := h.log }

theorem InRange.withCalls (h : s.InRange p) (hw : s.calls.sites.Widens calls.sites)
    (hcalls : calls.InRange p.scene s.sizes) : ({ s with calls } : State).InRange p := by
  have hrefs := hcalls.toRefs
  rw [sizes_calls] at hrefs
  exact { h.toRefs.mono fun _ _ => within_later (later_calls hw) with
    calls := hrefs
    places := h.places
    coherent := hcalls.toCoherent
    contexts := h.contexts
    cursor := h.cursor
    log := h.log }

end Parts

/-- What every step of an analysis keeps, also where it fails. -/
def watch (p : Problem) (w : Watch) : Guard Failure State :=
  (growth p w.Registered).both (guard p) w.Strict

section Watch

variable {w : Watch}

theorem sees_later (h : (watch p w).Later s t) {x : Table} {r : Ref x} (hr : p.Sees w s x r) :
    p.Sees w t x r :=
  fun hstrict => within_later (h.2 hstrict) (hr hstrict)

theorem watch_step {V : Prop} (hs : (watch p w).Holds s) (h : s.Changes p t)
    (hsame : t.synthetic = s.synthetic)
    (ht : w.Strict → s.InRange p → t.InRange p ∧ (guard p).Later s t ∧ V) :
    (watch p w).Holds t ∧ (watch p w).Later s t ∧ (w.Strict → V) := by
  have ht := fun hstrict => ht hstrict (hs.2 hstrict)
  exact ⟨⟨hs.1.changes h hsame, fun h => (ht h).1⟩, ⟨h, fun h => (ht h).2.1⟩, fun h => (ht h).2.2⟩

/-- A change that leaves the sizes of all tables as they are. -/
theorem watch_record (hs : (watch p w).Holds s) (h : s.Change p t)
    (hsame : t.synthetic = s.synthetic) (hsizes : s.sizes = t.sizes)
    (ht : w.Strict → s.InRange p → t.InRange p) :
    (watch p w).Holds t ∧ (watch p w).Later s t ∧ True := by
  have hstep := watch_step hs (.single h) hsame fun hstrict hs =>
    ⟨ht hstrict hs, fun x => (congrFun hsizes x).le, trivial⟩
  exact ⟨hstep.1, hstep.2.1, trivial⟩

end Watch

end State

namespace Run
open State

variable {p : Problem} {w : Watch} {s : State} {α β : Type} {n o source target : NodeId}
  {c : ContextId} {m : MethodId} {v : ValueId} {stmt : Option StmtId}

section Basic

theorem watch_modify {f : State → State} (h : s.Change p (f s))
    (hsame : (f s).synthetic = s.synthetic) (hsizes : s.sizes = (f s).sizes)
    (hf : w.Strict → s.InRange p → (f s).InRange p) :
    (watch p w).Safe s (modify f) fun t _ => t = f s :=
  .modify fun hs => (watch_record hs h hsame hsizes hf).imp_right (.imp_right fun _ => rfl)

theorem watch_scan {q : Scan α} {Q : α → Prop}
    (h : ∀ log, w.Strict → (Scan.guard p.scene).Safe log q fun _ a => Q a) :
    (watch p w).Safe s (scan q) fun _ a => w.Strict → Q a := by
  intro hs
  have hout := fun hstrict => h s.log hstrict (hs.2 hstrict).log
  have hlog : ∀ log, s.Changes p { s with log } := fun _ => .single .record
  unfold scan
  revert hout
  cases q s.log with
  | ok a log =>
    intro hout
    have hout : w.Strict → NoUnknownContext log ∧ Q a := fun hstrict => by
      cases hout hstrict with
      | ok hlog _ ha => exact ⟨hlog, ha⟩
    have hstep := watch_step hs (hlog log) rfl fun hstrict hs =>
      ⟨{ hs with log := (hout hstrict).1 }, (guard p).refl s, (hout hstrict).2⟩
    exact .ok hstep.1 hstep.2.1 hstep.2.2
  | error e log =>
    intro hout
    refine .error ⟨hlog log, fun _ => (guard p).refl s⟩ ⟨trivial, fun hstrict => ?_⟩
    cases hout hstrict with
    | error _ he => exact ⟨.of_fault he.1, { hs.2 hstrict with log := he.2 }⟩

theorem watch_lift {x : Except Fault α} {Q : α → Prop}
    (hx : w.Strict → p.scene.WellFormed → Answers x Q) :
    (watch p w).Safe s (liftM x : Run α) fun t a =>
      t = s ∧ x = .ok a ∧ (w.Strict → p.scene.WellFormed → Q a) := by
  cases x with
  | ok a =>
    refine fun hs => .ok hs ((watch p w).refl s) ⟨rfl, rfl, fun hstrict hp => ?_⟩
    obtain ⟨_, ⟨⟩, ha⟩ := hx hstrict hp
    exact ha
  | error e =>
    refine fun hs => .error ((watch p w).refl s) ⟨trivial, fun hstrict => ⟨?_, hs.2 hstrict⟩⟩
    refine .of_fault fun hp => ?_
    obtain ⟨_, ⟨⟩, -⟩ := hx hstrict hp

theorem watch_lift_bind {x : Except Fault α} {Q : α → Prop} {f : α → Run β} {W : State → β → Prop}
    (hx : w.Strict → p.scene.WellFormed → Answers x Q)
    (hf : ∀ a, x = .ok a → (w.Strict → p.scene.WellFormed → Q a) → (watch p w).Safe s (f a) W) :
    (watch p w).Safe s (liftM x >>= f) W := by
  refine .bind (watch_lift hx) ?_
  rintro _ a - ⟨rfl, ha, hq⟩
  exact hf a ha hq

theorem watch_fail {e : AnalysisError} {V : State → α → Prop} (he : p.scene.Admits (.error e)) :
    (watch p w).Safe s (fail e) V :=
  .throw fun hs => ⟨trivial, fun hstrict => ⟨he, hs.2 hstrict⟩⟩

theorem watch_note {notice : Notice} (hn : ∀ c, notice ≠ .unknownContext c) :
    (watch p w).Safe s (note notice) fun t _ => t = { s with log := s.log.push notice } :=
  watch_modify .record rfl rfl fun _ hs => { hs with log := hs.log.push hn }

/-- A step of the graph. -/
theorem watch_grow {m : Growing α} {V : FlowGraph → α → Prop}
    (hm : (FlowGraph.watch p.scene s.sizes w.graph).Safe s.graph m V) :
    (watch p w).Safe s (grow m) fun t a => V t.graph a ∧ t = { s with graph := t.graph } := by
  intro hs
  have hout := hm ⟨fun _ => hs.1.graph, fun h => ⟨(hs.2 h).contexts.has_empty, (hs.2 h).inGraph⟩⟩
  simp only [grow]
  revert hout
  generalize m s.graph = r
  intro hout
  cases hout with
  | ok hg hl hV =>
    have hstep := watch_step hs (changes_graph (hl.1 trivial)) rfl fun h hs =>
      ⟨hs.withGraph (hl.2 h) (hg.2 h).2, later_graph (hl.2 h), trivial⟩
    exact .ok hstep.1 hstep.2.1 ⟨hV, rfl⟩
  | error hl he =>
    refine .error ⟨changes_graph (hl.1 trivial), fun h => later_graph (hl.2 h)⟩
      ⟨trivial, fun h => ?_⟩
    exact ⟨.of_fault (he.2 h).1, (hs.2 h).withGraph (hl.2 h) (he.2 h).2.2⟩

theorem watch_node_bind {f : Node → Run β} {W : State → β → Prop} (hn : p.Sees w s .node n)
    (hf : ∀ a : Node, s.graph.At n a → (w.Strict → a.Refs (p.Within s)) →
      (watch p w).Safe s (f a) W) : (watch p w).Safe s (node n >>= f) W := by
  refine .bind (watch_grow (Growing.watch_node hn)) ?_
  rintro t a - ⟨⟨hg, ha, hrefs⟩, ht⟩
  rw [hg] at ht
  subst ht
  rw [sizes_graph] at hrefs
  exact hf a ha hrefs

/-- A step of the graph that gives a node. -/
theorem watch_grow_node {m : Growing NodeId}
    (h : (FlowGraph.watch p.scene s.sizes w.graph).Safe s.graph m (FlowGraph.Sees w.graph)) :
    (watch p w).Safe s (grow m) fun t n => p.Sees w t .node n :=
  (watch_grow h).mono fun _ _ _ _ h => h.1

/-- A step of the graph that gives an object. -/
theorem watch_grow_object {m : Growing NodeId}
    (h : (FlowGraph.watch p.scene s.sizes w.graph).Safe s.graph m fun t n =>
      (True → t.IsObject n) ∧ t.Sees w.graph n) :
    (watch p w).Safe s (grow m) fun t n => t.graph.IsObject n ∧ p.Sees w t .node n :=
  (watch_grow h).mono fun _ _ _ _ h => ⟨h.1.1 trivial, h.1.2⟩

/-- The node of an allocation is an object. -/
theorem watch_value (hc : p.Sees w s .context c) (hv : p.Sees w s .value v)
    (hstmt : ∀ i ∈ stmt, p.Sees w s .stmt i) :
    (watch p w).Safe s (value p c v stmt) fun t n =>
      ((Location.value v).IsObject p.scene → t.graph.IsObject n) ∧ p.Sees w t .node n :=
  (watch_grow (Growing.watch_value hc hv hstmt)).mono fun _ _ _ _ h => ⟨h.1.1 trivial, h.1.2⟩

/-- A step of the call graph. -/
theorem watch_onCalls {f : CallGraph → α × CallGraph} {V : CallGraph → α → Prop}
    (h : s.calls.Extends (f s.calls).2)
    (hf : w.Strict → s.calls.InRange p.scene s.sizes → (f s.calls).2.InRange p.scene s.sizes ∧
      s.calls.sites.Widens (f s.calls).2.sites ∧ V (f s.calls).2 (f s.calls).1) :
    (watch p w).Safe s (onCalls f) fun t a =>
      (a, t) = ((f s.calls).1, { s with calls := (f s.calls).2 }) ∧ (w.Strict → V t.calls a) := by
  refine .modifyGet fun hs => ?_
  have hstep := watch_step hs (.single (.calls h)) rfl fun hstrict hs =>
    (hf hstrict hs.inCalls).imp (hs.withCalls (hf hstrict hs.inCalls).2.1) (.imp_left later_calls)
  exact ⟨hstep.1, hstep.2.1, rfl, hstep.2.2⟩

/-- The choice of a context, made of items that exist. -/
theorem watch_choose {f : ContextTable → ContextTable.Choice} {P : ContextItem → Prop}
    (h : s.contexts.Extends (f s.contexts).table)
    (hf : w.Strict → s.contexts.Valid p.settings.depth →
      s.contexts.Chosen p.settings.depth P (f s.contexts) ∧ (f s.contexts).notice = none)
    (hP : ∀ x, P x → x.Refs (p.Sees w s)) :
    (watch p w).Safe s (choose f) fun t c => p.Sees w t .context c := by
  have hcontexts : s.Change p { s with contexts := (f s.contexts).table } := .contexts h
  refine .modifyGet fun hs => watch_step hs (.tail (.single hcontexts) .record) rfl
    fun hstrict hs => ?_
  obtain ⟨hchosen, hnotice⟩ := hf hstrict hs.contexts
  have hl : (guard p).Later s { s with contexts := (f s.contexts).table } := by
    intro x
    cases x with
    | context => exact hchosen.keeps.size_le
    | item => exact hchosen.keeps.items_size_le
    | _ => exact Nat.le_refl _
  dsimp only
  rw [hnotice]
  refine ⟨{ hs.toRefs.mono fun _ _ => within_later hl with
    items := fun x hx => ?_
    places := hs.places
    coherent := hs.coherent
    contexts := hchosen.valid
    cursor := hs.cursor
    log := hs.log }, hl, hchosen.known⟩
  rcases hchosen.items x hx with hx | hx
  · exact (hs.items x hx).mono fun _ _ => within_later hl
  · exact (hP x hx).mono fun _ _ hr => within_later hl (hr hstrict)

end Basic

section Edges

theorem watch_wake (hn : p.Sees w s .node n) :
    (watch p w).Safe s (wake n) fun t _ => t = { s with retrigger := s.retrigger.insert n } :=
  watch_modify .record rfl rfl fun h hs =>
    { hs with retrigger := forall_mem_insert hs.retrigger (hn h) }

theorem watch_wakeBase (hn : p.Sees w s .node n) : (watch p w).Runs s (wakeBase n) := by
  refine watch_node_bind hn fun a _ ha => ?_
  split
  · next hbase => exact (watch_wake fun h => (ha h).fieldRef? _ hbase).runs
  · exact .pure trivial

theorem watch_wakeSource {kind : EdgeKind} (hsource : p.Sees w s .node source)
    (htarget : p.Sees w s .node target) : (watch p w).Runs s (wakeSource source target kind) := by
  unfold wakeSource
  split
  · exact watch_wakeBase hsource
  · exact .next (watch_wakeBase htarget) fun t _ hl => (watch_wake (sees_later hl hsource)).runs
  · exact (watch_wake hsource).runs

/-- A new edge, from an object if it is an address. -/
theorem watch_addEdge {kind : EdgeKind} (hkind : kind = .address → s.graph.IsObject source)
    (hsource : p.Sees w s .node source) (htarget : p.Sees w s .node target)
    (hstmt : ∀ i ∈ stmt, p.Sees w s .stmt i) :
    (watch p w).Runs s (grow (Growing.addEdge source target kind stmt)) :=
  (watch_grow (Growing.watch_addEdge (fun _ => hkind) hsource htarget hstmt)).runs

theorem watch_flow {kind : EdgeKind} (hkind : kind ≠ .address) (hsource : p.Sees w s .node source)
    (htarget : p.Sees w s .node target) (hstmt : ∀ i ∈ stmt, p.Sees w s .stmt i) :
    (watch p w).Runs s (flow source target kind stmt) := by
  refine .next (watch_addEdge (fun h => absurd h hkind) hsource htarget hstmt) fun t new hl => ?_
  cases new with
  | none => exact .pure trivial
  | some e => exact .last (watch_wakeSource (sees_later hl hsource) (sees_later hl htarget))

theorem watch_address (ho : s.graph.IsObject o) (ho' : p.Sees w s .node o)
    (htarget : p.Sees w s .node target) (hstmt : ∀ i ∈ stmt, p.Sees w s .stmt i) :
    (watch p w).Runs s (address o target stmt) :=
  .last (watch_addEdge (fun _ => ho) ho' htarget hstmt)

/-- Only objects are left for the next solution. -/
theorem watch_update (hn : p.Sees w s .node n) (ho : s.graph.IsObject o)
    (ho' : p.Sees w s .node o) : (watch p w).Runs s (update p n o) := by
  -- what holds of the objects that were left before and of the new one
  have hset : ∀ P : NodeId → Prop,
      (∀ set, s.updates[n]? = some set → ∀ x, set.contains x = true → P x) → P o →
      ∀ x, (((s.updates[n]?).getD p.settings.collection.empty).insert o).2.contains x = true → P x := by
    intro P hold ho x hx
    rw [ObjectSet.contains_insert, Bool.or_eq_true, decide_eq_true_eq] at hx
    rcases hx with hx | rfl
    · refine getD_of_forall (R := fun set : ObjectSet => ∀ x, set.contains x = true → P x) hold
        (fun x hx => ?_) x hx
      simp [Collection.contains_empty] at hx
    · exact ho
  refine .modify fun hs => watch_record hs (.update (hset _ (hs.1.updates n) ho)) rfl rfl
    fun h hs => { hs with updates := forall_insert_map hs.updates ⟨hn h, ?_⟩ }
  exact hset _ (fun objects hu => (hs.updates n objects hu).2) (ho' h)

/-- What is attached to a pointer may change as long as no call is taken away. -/
theorem watch_mapPointer {f : PointerInfo → PointerInfo}
    (hf : ∀ i : PointerInfo, i.dynamicCalls ⊆ (f i).dynamicCalls ∧
      i.unknownCalls ⊆ (f i).unknownCalls ∧ i.instanceCalls ⊆ (f i).instanceCalls)
    (hf' : w.Strict → ∀ i : PointerInfo, i.Refs (p.Within s) → (f i).Refs (p.Within s)) :
    (watch p w).Safe s (mapPointer n f) fun t _ =>
      t = { s with graph := s.graph.modifyNode n (·.mapPointer f) } := by
  refine (watch_grow (Growing.watch_update (fun a _ => (a.mapPointer_keeps f).1) ?_
    fun h a ha => ?_)).mono ?_
  · intro a info hinfo
    exact ⟨f info, by rw [Node.pointer?_mapPointer, hinfo]; rfl, hf info⟩
  · rw [sizes_graph] at ha ⊢
    exact ha.mapPointer (hf' h)
  · rintro t _ - - ⟨hgraph, ht⟩
    rwa [hgraph] at ht

end Edges

section Methods

theorem watch_schedule (hm : p.Sees w s .method m) (hc : p.Sees w s .context c) :
    (watch p w).Runs s (schedule m c) := by
  refine .modify fun hs => ?_
  split
  · exact ⟨hs, (watch p w).refl s, trivial⟩
  · refine watch_record hs .record rfl rfl fun h hs =>
      { hs with scheduled := forall_mem_insert hs.scheduled (hm h), agenda := ?_ }
    rw [Queue.toList_push]
    exact List.forall_mem_append.2 ⟨hs.agenda, by simpa using ⟨hc h, hm h⟩⟩

theorem watch_reach (hm : p.Sees w s .method m) : (watch p w).Runs s (reach p m) := by
  refine watch_lift_bind (fun h hp => hp.method (hm h hp)) fun decl _ _ => .discard
    (watch_onCalls (V := fun _ _ => True) CallGraph.extends_addNode fun h hcalls =>
      ⟨hcalls.addNode (hm h), ?_, trivial⟩)
  exact Nat.le_of_eq (congrArg (·.sites.size) CallGraph.sites_addNode.symm)

theorem watch_callEdge {i : SiteId} {caller callee : MethodId} {type : CallType}
    (hi : p.Sees w s .site i) (hcaller : p.Sees w s .method caller)
    (hcallee : p.Sees w s .method callee) :
    (watch p w).Runs s (onCalls (·.addEdge i caller callee type)) := by
  refine (watch_onCalls (V := fun _ _ => True) CallGraph.extends_addEdge fun h hcalls =>
    ⟨hcalls.addEdge (hi h) (hcaller h) (hcallee h), ?_, trivial⟩).runs
  exact Nat.le_of_eq (congrArg (·.sites.size) CallGraph.sites_addEdge.symm)

theorem watch_addEntry (hm : p.Sees w s .method m) : (watch p w).Runs s (addEntry p m) := by
  refine .bind (V := fun t c => p.Sees w t .context c) ?_ fun s₁ c _ hc => ?_
  · refine watch_choose ContextTable.extends_enter
      (fun _ h => ⟨ContextTable.enter_chosen h, ?_⟩) fun x hx => ?_
    · unfold ContextTable.enter
      split
      · exact ContextTable.notice_extend h.has_empty
      · rfl
    · unfold Policy.entryItem? at hx
      split at hx
      · cases hx
        exact hm
      · cases hx
  refine .next (watch_reach hm) fun s₂ _ hl => ?_
  have hc := sees_later hl hc
  refine .next (V := fun _ _ => True) (.modify fun hs => ?_) fun s₃ _ hl' => ?_
  · split
    · exact ⟨hs, (watch p w).refl s₂, trivial⟩
    · exact watch_record hs .record rfl rfl fun h hs =>
        { hs with entries := Array.forall_mem_push.2 ⟨⟨hc h, hm h⟩, hs.entries⟩ }
  · exact watch_schedule hm (sees_later hl' hc)

/-- The survey of a method that has no summary yet. Where it fails, the sites that it has found
stay. -/
theorem watch_survey (hnew : s.summaries[m]? = none) (hm : p.Sees w s .method m) :
    (watch p w).Safe s (survey p m) fun t captures =>
      w.Strict → ∀ c ∈ captures, c.Refs (p.Within t) := by
  intro hs
  have hout : (Survey.watch p.scene s.sizes w.Strict).Outcome _ _
      (Survey.ofMethod p.scene p.settings.explains m s.calls s.log) :=
    Survey.outcome_ofMethod hm (fun h => (hs.2 h).inCalls) fun h => (hs.2 h).log
  have hchanges : ∀ v : Survey, s.calls.Extends v.calls →
      s.Changes p { s with calls := v.calls, log := v.log } := fun v hcalls =>
    .tail (.single (.calls hcalls)) .record
  have hstate : ∀ v : Survey, s.InRange p → s.calls.sites.Widens v.calls.sites →
      v.InRange p.scene s.sizes → ({ s with calls := v.calls, log := v.log } : State).InRange p :=
    fun v hs hw hv => { hs.withCalls hw hv.calls with log := hv.log }
  simp only [survey]
  revert hout
  generalize Survey.ofMethod p.scene p.settings.explains m s.calls s.log = r
  intro hout
  cases hout with
  | ok hv hl _ =>
    have hstep := watch_step hs ((hchanges _ hl.1).tail (.summary hnew hv.1)) rfl fun h hs => by
      have hnew := (hv.2 h).summary
      have hcaptures := (hv.2 h).captures
      rw [sizes_calls] at hnew hcaptures
      have hstate := hstate _ hs (hl.2 h) (hv.2 h)
      exact ⟨{ hstate with summaries := forall_insert_map hstate.summaries ⟨hm h, hnew⟩ },
        later_calls (p := p) (hl.2 h), hcaptures⟩
    exact .ok hstep.1 hstep.2.1 hstep.2.2
  | error hl he =>
    refine .error ⟨hchanges _ hl.1, fun h => later_calls (p := p) (hl.2 h)⟩ ⟨trivial, fun h => ?_⟩
    exact ⟨.of_fault (he.2 h).1, hstate _ (hs.2 h) (hl.2 h) (he.2 h).2⟩

theorem watch_summarize (hm : p.Sees w s .method m) : (watch p w).Runs s (summarize p m) := by
  refine .get_bind ?_
  split
  · exact .pure trivial
  next hknown =>
  have hnew : s.summaries[m]? = none := by
    rw [Std.TreeMap.contains_eq_isSome_getElem?] at hknown
    simpa using hknown
  refine watch_lift_bind (fun h hp => hp.method (hm h hp)) fun decl _ _ => ?_
  split
  · exact watch_lift_bind (fun h hp => hp.classOfMethod (hm h hp)) fun _ _ _ => .pure trivial
  refine .bind (watch_survey hnew hm) fun s₁ captures _ hcaptures => ?_
  split
  · refine .next (.forM fun t owner hl howner => ?_) fun s₂ _ hl => ?_
    · refine .get_bind ?_
      split
      · obtain ⟨c, hc, rfl⟩ := Capture.mem_owners.1 howner
        exact watch_addEntry (sees_later hl fun h => (hcaptures h c hc).owner)
      · exact .pure trivial
    · refine .last (watch_modify .record rfl rfl fun h hs => { hs with captures := ?_ })
      exact forall_insert_map hs.captures
        ⟨hm h, fun c hc => (hcaptures h c hc).mono fun _ _ => within_later (hl.2 h)⟩
  · exact .pure trivial

theorem watch_isSingleton (hm : p.Sees w s .method m) : (watch p w).Runs s (isSingleton p m) := by
  refine .get_bind ?_
  split
  · exact .pure trivial
  refine watch_lift_bind (fun h hp => hp.method (hm h hp)) fun decl _ _ => .get_bind ?_
  extract_lets found
  exact .last (watch_modify .record rfl rfl fun h hs =>
    { hs with singletons := forall_insert_map hs.singletons (hm h) })

theorem watch_calleeContext {site : StaticSite} {object : Option NodeId}
    (hsite : p.Sees w s .site site.id) (hc : p.Sees w s .context c)
    (ho : ∀ o ∈ object, p.Sees w s .node o) (hm : p.Sees w s .method m) :
    (watch p w).Safe s (calleeContext p site c object m) fun t d => p.Sees w t .context d := by
  refine .next (watch_isSingleton hm) fun t shared hl => ?_
  split
  · exact .of_holds fun ht => .pure fun h => (ht.2 h).contexts.has_empty
  · have hc := sees_later hl hc
    refine watch_choose ContextTable.extends_select
      (fun hstrict h => ⟨ContextTable.select_chosen h (hc hstrict), ?_⟩) fun x hx => ?_
    · unfold ContextTable.select
      split
      · exact ContextTable.notice_extend (hc hstrict)
      · rfl
    · unfold Policy.item? at hx
      split at hx
      · cases hx
        exact ⟨sees_later hl hsite, hm⟩
      · obtain ⟨o, hobject, rfl⟩ := Option.map_eq_some_iff.1 hx
        exact sees_later hl (ho o hobject)
      · cases hx
        exact hm

theorem watch_enter (hm : p.Sees w s .method m) (hc : p.Sees w s .context c) :
    (watch p w).Runs s (enter p m c) :=
  .next (watch_reach hm) fun _ _ hl => watch_schedule hm (sees_later hl hc)

end Methods

section Callbacks

variable {origin : StaticSite} {pointer : NodeId} {args : List CallArg}

/-- The record of a call is made before the call is attached, so only the outcome is in order. -/
theorem watch_callPointer_loose (hw : ¬ w.Registered) (hsite : origin.Refs (p.Sees w s))
    (hc : p.Sees w s .context c) (hpointer : p.Sees w s .node pointer)
    (hargs : ∀ x ∈ args, x.Refs (p.Sees w s)) :
    (watch p w).Safe s (callPointer origin c pointer args)
      (CallsPointer origin.id c pointer args s) := by
  refine .get_bind ?_
  split
  · next i hi => exact .pure (.known hi rfl)
  next hnew =>
  refine .bind (watch_onCalls (V := fun g (i : SiteId) => i.index < g.sites.sites.size)
    (CallGraph.extends_sites SiteTable.addDynamic_grows s.calls.stmtSites) fun h hcalls => ?_) ?_
  · have hargs : ∀ l ∈ some args, ∀ x ∈ l, x.Refs (p.scene.Within (s.calls.sites.sizes s.sizes)) := by
      rintro _ ⟨⟩ x hx
      rw [sizes_calls]
      exact (hargs x hx).mono fun _ _ hr => hr h
    have hsites : (s.calls.sites.addDynamic origin.stmt ⟨Name.unknownClass, Name.pointerCall⟩
        (some args) none (some (.node pointer)) origin.caller none).2.InRange p.scene s.sizes := by
      have hnone : ∀ v ∈ (none : Option ValueId), p.scene.Sure v := by
        simp
      refine .addDynamic (fun i hi => hsite.stmt i hi h) hargs hnone (hsite.caller h) hcalls.sites ?_
        (by simp)
      rintro _ ⟨⟩
      exact hpointer h
    exact ⟨hcalls.onSites (SiteTable.widens_withSite _) hsites, SiteTable.widens_withSite _,
      by simp [SiteTable.addDynamic, SiteTable.nextId]⟩
  rintro t i hl ⟨heq, hi⟩
  have hcall : t.CallsThrough i pointer args := by
    cases heq
    exact ⟨_, SiteTable.dynamic?_addDynamic, rfl, rfl, rfl⟩
  have hold : ((origin.id, pointer, args), i) :: t.synthetic =
      ((origin.id, pointer, args), i) :: s.synthetic := by
    cases heq
    rfl
  refine .bind (V := fun u _ => u = { t with
    synthetic := ((origin.id, pointer, args), i) :: t.synthetic }) (.modify fun ht => ?_) ?_
  · have hchange : t.Change p { t with
        synthetic := ((origin.id, pointer, args), i) :: t.synthetic } := .synthesize hcall
    refine ⟨⟨⟨hchange.ordered ht.1.toOrdered, fun h => absurd h hw⟩, fun h => ?_⟩,
      ⟨.single hchange, fun _ => (guard p).refl t⟩, rfl⟩
    refine { ht.2 h with synthetic := List.forall_mem_cons.2 ⟨?_, (ht.2 h).synthetic⟩ }
    exact ⟨sees_later hl hsite.id h, sees_later hl hpointer h,
      fun x hx => (hargs x hx).mono fun _ _ hr => sees_later hl hr h, hi h⟩
  rintro _ - hl' rfl
  have hl := (watch p w).trans hl hl'
  refine watch_node_bind (sees_later hl hpointer) fun a ha _ => ?_
  split
  · next hsome =>
    refine .bind (watch_mapPointer (fun info => ?_) fun h info hinfo => ?_) ?_
    · exact ⟨List.subset_append_left .., List.Subset.refl _, List.Subset.refl _⟩
    · refine { hinfo with dynamicCalls := List.forall_mem_append.2 ⟨hinfo.dynamicCalls, ?_⟩ }
      simpa using ⟨hi h, sees_later hl hc h⟩
    rintro _ - hl' rfl
    refine .bind (watch_wake (sees_later ((watch p w).trans hl hl') hpointer)) ?_
    rintro _ - - rfl
    obtain ⟨info, hinfo⟩ := Option.isSome_iff_exists.1 hsome
    refine .pure (.attached hnew hold hcall ?_ ?_)
    · refine ⟨_, { info with dynamicCalls := info.dynamicCalls ++ [(i, c)] },
        FlowGraph.at_modifyNode.2 ⟨a, ha, rfl⟩, ?_, List.mem_append_right _ (.head _)⟩
      rw [if_pos rfl, Node.pointer?_mapPointer, hinfo, Option.map_some]
    · exact (mem_insert ..).2 (.inl rfl)
  · next hnone =>
    refine .bind (watch_note (by rintro _ ⟨⟩)) ?_
    rintro _ - - rfl
    exact .pure (.refused hold ha (by simpa using hnone))

/-- A call that a model makes up is recorded with the function value and the arguments that it is
made with. -/
theorem watch_callPointer (hsite : origin.Refs (p.Sees w s)) (hc : p.Sees w s .context c)
    (hpointer : p.Sees w s .node pointer) (hargs : ∀ x ∈ args, x.Refs (p.Sees w s)) :
    (watch p w).Runs s (callPointer origin c pointer args) := by
  intro hs
  have hloose : (watch p ⟨w.Strict, False⟩).Safe s (callPointer origin c pointer args)
      (CallsPointer origin.id c pointer args s) :=
    watch_callPointer_loose id hsite hc hpointer hargs
  have hout := hloose ⟨⟨hs.1.toOrdered, False.elim⟩, hs.2⟩
  revert hout
  generalize callPointer origin c pointer args s = r
  intro hout
  cases hout with
  | ok ht hl hcalls =>
    have he := (Changes.extends hl.1).graph
    exact .ok ⟨⟨ht.1.toOrdered, fun h => hcalls.registered he (hs.1.registered h)⟩, ht.2⟩ hl trivial
  | error hl he => exact .error hl he

end Callbacks

end Run

end PointsTo
