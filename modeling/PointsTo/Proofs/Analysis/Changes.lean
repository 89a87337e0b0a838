import PointsTo.Analysis.Rounds
import PointsTo.Proofs.Context.Table
import PointsTo.Proofs.Solver.Changes
import PointsTo.Proofs.Summary.Growth

/-! The changes that an analysis makes to its state take nothing away. -/
namespace PointsTo

/-- The call `i` is attached to the node `n` for some context, unless nothing can be attached to
it. -/
def FlowGraph.Expects (g : FlowGraph) (n : NodeId) (i : SiteId) : Prop :=
  ∃ a, g.At n a ∧ (a.pointer?.isSome → ∃ c, g.Attaches (·.dynamicCalls) n (i, c))

theorem FlowGraph.Expects.extends {g g' : FlowGraph} {n : NodeId} {i : SiteId} (h : g.Expects n i)
    (he : g.Extends g') : g'.Expects n i := by
  obtain ⟨a, ha, hcalls⟩ := h
  obtain ⟨a', ha', hk⟩ := he.nodes n a ha
  refine ⟨a', ha', fun hpointer => ?_⟩
  obtain ⟨c, hc⟩ := hcalls (hk.pointer?_isSome ▸ hpointer)
  exact ⟨c, he.attaches hc⟩

namespace State

/-- `t` has everything that `s` has found. -/
structure Extends (s t : State) : Prop where
  graph : s.graph.Extends t.graph
  points : ∀ n o, s.points.Has n o → t.points.Has n o
  calls : s.calls.Extends t.calls
  contexts : s.contexts.Extends t.contexts
  summaries : ∀ (m : MethodId) x, s.summaries[m]? = some x → t.summaries[m]? = some x
  instantiated : ∀ a ∈ s.instantiated, a ∈ t.instantiated
  resolved : ∀ d ∈ s.resolved, d ∈ t.resolved

/-- The call `i` is one through the function value `pointer` with the given arguments. -/
def CallsThrough (s : State) (i : SiteId) (pointer : NodeId) (args : List CallArg) : Prop :=
  ∃ site, s.calls.sites.dynamic? i = some site ∧ site.signature.name = Name.pointerCall ∧
    site.receiver = some (.node pointer) ∧ site.args = some args

/-- What is taken for an object is one, and the calls made up by the models are recorded as they
were made. -/
structure Ordered (p : Problem) (s : State) : Prop where
  graph : s.graph.Ordered p.scene
  points : ∀ n o, s.points.Has n o → s.graph.IsObject o
  updates : ∀ (n : NodeId) set, s.updates[n]? = some set → set.Objects s.graph
  summaries : ∀ (m : MethodId) x, s.summaries[m]? = some x → x.Ordered p.scene
  synthetic : ∀ r ∈ s.synthetic, s.CallsThrough r.2 r.1.2.1 r.1.2.2

/-- Each call made up by a model is attached to the function value that it is made through. -/
def Registered (s : State) : Prop := ∀ r ∈ s.synthetic, s.graph.Expects r.1.2.1 r.2

/-- What holds before and after every step that succeeds. That calls are registered is asked for in
the `strict` case only, since a step that fails may leave one behind that is not. -/
structure Kept (p : Problem) (strict : Prop) (s : State) : Prop extends Ordered p s where
  registered : strict → s.Registered

/-- One change of the state of an analysis. -/
inductive Change (p : Problem) (s : State) : State → Prop where
  | solver {v v' : Solver} : v.Change p.scene v' → v.graph = s.graph → v.points = s.points →
      Change p s { s with graph := v'.graph, points := v'.points, cursor := v'.cursor }
  | calls {calls : CallGraph} : s.calls.Extends calls → Change p s { s with calls }
  | contexts {contexts : ContextTable} : s.contexts.Extends contexts →
      Change p s { s with contexts }
  | summary {m : MethodId} {x : Summary} : s.summaries[m]? = none → x.Ordered p.scene →
      Change p s { s with summaries := s.summaries.insert m x }
  | instantiate (a : Activation) :
      Change p s { s with instantiated := s.instantiated.insert a }
  | claim (d : Dispatch) : Change p s { s with resolved := s.resolved.insert d }
  | update {n : NodeId} {set : ObjectSet} : set.Objects s.graph →
      Change p s { s with updates := s.updates.insert n set }
  | handOver : Change p s { s with retrigger := ∅, updates := ∅ }
  | synthesize {origin i : SiteId} {pointer : NodeId} {args : List CallArg} :
      s.CallsThrough i pointer args →
      Change p s { s with synthetic := ((origin, pointer, args), i) :: s.synthetic }
  | record {captures : Std.TreeMap MethodId (List Capture)} {singletons : Std.TreeMap MethodId Bool}
      {scheduled : Std.TreeSet MethodId} {agenda : Queue Activation} {entries : Array Activation}
      {links : Array Activation} {retrigger : Std.TreeSet NodeId} {unresolved : Array Dispatch}
      {fieldDispatched : Std.TreeSet Dispatch} {rounds : Nat} {log : Array Notice} :
      Change p s { s with
        captures, singletons, scheduled, agenda, entries, links, retrigger, unresolved,
        fieldDispatched, rounds, log }

/-- Any number of changes. -/
abbrev Changes (p : Problem) : State → State → Prop := Relation.ReflTransGen (Change p)

variable {p : Problem} {strict : Prop} {s t u : State}

theorem Extends.refl (s : State) : s.Extends s where
  graph := .refl _
  points _ _ h := h
  calls := .refl _
  contexts := .refl _
  summaries _ _ h := h
  instantiated _ h := h
  resolved _ h := h

theorem Extends.trans (h : s.Extends t) (h' : t.Extends u) : s.Extends u where
  graph := h.graph.trans h'.graph
  points n o ho := h'.points n o (h.points n o ho)
  calls := h.calls.trans h'.calls
  contexts := h.contexts.trans h'.contexts
  summaries m x hx := h'.summaries m x (h.summaries m x hx)
  instantiated a ha := h'.instantiated a (h.instantiated a ha)
  resolved d hd := h'.resolved d (h.resolved d hd)

theorem Change.extends (h : s.Change p t) : s.Extends t := by
  have hsame := Extends.refl s
  cases h with
  | @solver v v' hchange hgraph hpoints =>
    exact { hsame with
      graph := hgraph ▸ hchange.graph_extends
      points := fun n o ho => hchange.has (hpoints.symm ▸ ho) }
  | calls h => exact { hsame with calls := h }
  | contexts h => exact { hsame with contexts := h }
  | @summary m x hnew _ =>
    refine { hsame with summaries := fun k y hy => ?_ }
    have hne : m ≠ k := by
      rintro rfl
      rw [hnew] at hy
      cases hy
    rwa [getElem?_insert, if_neg hne]
  | instantiate a =>
    exact { hsame with instantiated := fun b hb => (mem_insert ..).2 (.inr hb) }
  | claim d => exact { hsame with resolved := fun e he => (mem_insert ..).2 (.inr he) }
  | update | handOver | synthesize | record => exact { hsame with }

theorem Changes.extends (h : s.Changes p t) : s.Extends t := by
  induction h with
  | refl => exact .refl s
  | tail _ hchange ih => exact ih.trans hchange.extends

theorem Changes.isObject (h : s.Changes p t) {o : NodeId} (ho : s.graph.IsObject o) :
    t.graph.IsObject o :=
  h.extends.graph.isObject ho

theorem CallsThrough.extends {i : SiteId} {pointer : NodeId} {args : List CallArg}
    (h : s.CallsThrough i pointer args) (hcalls : s.calls.Extends t.calls) :
    t.CallsThrough i pointer args := by
  obtain ⟨site, hsite, hcall⟩ := h
  exact ⟨site, hcalls.dynamic? hsite, hcall⟩

theorem Change.ordered (h : s.Change p t) (hs : s.Ordered p) : t.Ordered p := by
  cases h with
  | @solver v v' hchange hgraph hpoints =>
    have hv : v.Ordered p.scene := ⟨hgraph ▸ hs.graph, by rw [hgraph, hpoints]; exact hs.points⟩
    have hv' := hchange.ordered hv
    exact { hs with
      graph := hv'.graph
      points := hv'.points
      updates := fun n set hset o ho =>
        hchange.graph_extends.isObject (hgraph.symm ▸ hs.updates n set hset o ho) }
  | calls hcalls => exact { hs with synthetic := fun r hr => (hs.synthetic r hr).extends hcalls }
  | summary _ hx => exact { hs with summaries := forall_insert_map hs.summaries hx }
  | update hset => exact { hs with updates := forall_insert_map hs.updates hset }
  | handOver => exact { hs with updates := by simp }
  | synthesize hcall => exact { hs with synthetic := List.forall_mem_cons.2 ⟨hcall, hs.synthetic⟩ }
  | contexts | instantiate | claim | record => exact { hs with }

theorem Changes.ordered (h : s.Changes p t) (hs : s.Ordered p) : t.Ordered p := by
  induction h with
  | refl => exact hs
  | tail _ hchange ih => exact hchange.ordered ih

theorem ordered_initial (p : Problem) : (initial p.settings).Ordered p where
  graph := FlowGraph.ordered_empty
  points n o ho := by
    simp [initial, DiffTable.Has, DiffTable.get, DiffTable.empty, DiffTable.settledOf,
      DiffTable.pendingOf, ObjectSet.contains_union] at ho
  updates := by simp [initial]
  summaries := by simp [initial]
  synthetic := by simp [initial]

theorem Kept.changes (hs : s.Kept p strict) (h : s.Changes p t)
    (hsame : t.synthetic = s.synthetic) : t.Kept p strict where
  toOrdered := h.ordered hs.toOrdered
  registered hstrict r hr := (hs.registered hstrict r (hsame ▸ hr)).extends h.extends.graph

theorem kept_initial (p : Problem) : (initial p.settings).Kept p strict where
  toOrdered := ordered_initial p
  registered _ := by simp [Registered, initial]

/-- What every step of an analysis keeps, also where it fails. -/
def growth (p : Problem) (strict : Prop) : Guard Failure State where
  Holds := Kept p strict
  Later := Changes p
  Fails _ _ := True
  refl _ := .refl
  trans := .trans

theorem changes_graph {g : FlowGraph} (h : s.graph.Changes p.scene g) :
    s.Changes p { s with graph := g } := by
  refine h.lift (fun g => ({ s with graph := g } : State)) fun g₁ g₂ hchange => ?_
  exact .solver (v := { graph := g₁, points := s.points, cursor := s.cursor }) (.graph hchange)
    rfl rfl

end State

namespace Run
open State

variable {s : State} {c : ContextId} {pointer : NodeId} {args : List CallArg}

/-- What a model's call of a function value comes to: it is known, or it is attached to the value
for the context `c`, or nothing can be attached to that. -/
inductive CallsPointer (origin : SiteId) (c : ContextId) (pointer : NodeId) (args : List CallArg)
    (s t : State) : Option SiteId → Prop where
  | known {i : SiteId} : s.synthetic.lookup (origin, pointer, args) = some i → t = s →
      CallsPointer origin c pointer args s t (some i)
  | attached {i : SiteId} : s.synthetic.lookup (origin, pointer, args) = none →
      t.synthetic = ((origin, pointer, args), i) :: s.synthetic → t.CallsThrough i pointer args →
      t.graph.Attaches (·.dynamicCalls) pointer (i, c) → pointer ∈ t.retrigger →
      CallsPointer origin c pointer args s t (some i)
  | refused {i : SiteId} {a : Node} : t.synthetic = ((origin, pointer, args), i) :: s.synthetic →
      t.graph.At pointer a → a.pointer?.isSome = false → CallsPointer origin c pointer args s t none

theorem CallsPointer.registered {i : SiteId} {t : State} {r : Option SiteId}
    (h : CallsPointer i c pointer args s t r) (he : s.graph.Extends t.graph) (hs : s.Registered) :
    t.Registered := by
  have hold : ∀ r ∈ s.synthetic, t.graph.Expects r.1.2.1 r.2 := fun r hr => (hs r hr).extends he
  cases h with
  | known _ ht => exact ht ▸ hs
  | attached _ hsynthetic _ hcall _ =>
    obtain ⟨a, info, ha, hinfo, hd⟩ := hcall
    rw [Registered, hsynthetic]
    exact List.forall_mem_cons.2 ⟨⟨a, ha, fun _ => ⟨c, a, info, ha, hinfo, hd⟩⟩, hold⟩
  | refused hsynthetic ha hnone =>
    rw [Registered, hsynthetic]
    refine List.forall_mem_cons.2 ⟨⟨_, ha, fun hsome => ?_⟩, hold⟩
    rw [hnone] at hsome
    cases hsome

end Run

end PointsTo
