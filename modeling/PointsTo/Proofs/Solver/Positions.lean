import PointsTo.Proofs.Flow.Positions
import PointsTo.Proofs.Solver.Changes

/-! Every node that the solver stores exists, and no step of it comes upon one that does not. Whatever
it is given, it takes nothing away. -/
namespace PointsTo

variable {t : DiffTable}

section Refs

variable (P : Positions)

def ObjectSet.Refs (s : ObjectSet) : Prop := ∀ o, s.contains o = true → P .node o

def DiffTable.Refs (t : DiffTable) : Prop := ∀ n o, t.Has n o → P .node n ∧ P .node o

structure Solver.Refs (v : Solver) : Prop where
  graph : v.graph.Refs P
  points : v.points.Refs P
  queue : ∀ n ∈ v.queue.toList, P .node n
  receivers : ∀ (n : NodeId) objects, v.receivers[n]? = some objects →
    P .node n ∧ ∀ o ∈ objects, P .node o

variable {P} {Q : Positions} (hPQ : ∀ t r, P t r → Q t r)

include hPQ

theorem ObjectSet.Refs.mono {s : ObjectSet} (h : s.Refs P) : s.Refs Q := fun o ho =>
  hPQ _ _ (h o ho)

theorem DiffTable.Refs.mono {t : DiffTable} (h : t.Refs P) : t.Refs Q := fun n o ho =>
  (h n o ho).imp (hPQ _ _) (hPQ _ _)

theorem Solver.Refs.mono {v : Solver} (h : v.Refs P) : v.Refs Q where
  graph := h.graph.mono hPQ
  points := h.points.mono hPQ
  queue n hn := hPQ _ _ (h.queue n hn)
  receivers n objects hn := (h.receivers n objects hn).imp (hPQ _ _) fun ho o hmem =>
    hPQ _ _ (ho o hmem)

end Refs

theorem DiffTable.Refs.get {P : Positions} (h : t.Refs P) (n : NodeId) :
    (t.get n).Refs P := fun o ho => (h n o ho).2

theorem DiffTable.Refs.flush {P : Positions} (h : t.Refs P) (n : NodeId) :
    (t.flush n).Refs P := fun m o ho => h m o (DiffTable.has_flush.1 ho)

theorem DiffTable.Refs.gains {P : Positions} {n : NodeId} {objects : NodeId → Prop}
    {r : Bool × DiffTable} (h : t.Refs P) (hr : t.Gains n objects r) (hn : P .node n)
    (ho : ∀ o, objects o → P .node o) : r.2.Refs P := by
  intro m o hm
  rcases (hr.has m o).1 hm with hm | ⟨rfl, hm⟩
  · exact h m o hm
  · exact ⟨hn, ho o hm⟩

theorem DiffTable.refs_empty {P : Positions} (c : Collection) : (empty c).Refs P := by
  intro n o ho
  simp [Has, get, empty, settledOf, pendingOf, ObjectSet.contains_union] at ho

section Neighbours

variable {P : Positions} {g : FlowGraph} {n : NodeId} {kind : EdgeKind}

theorem FlowGraph.Refs.edge? (h : g.Refs P) {e : EdgeId} {a : FlowEdge} (ha : g.edge? e = some a) :
    a.Refs P := h.edges a (Array.mem_of_getElem? ha)

theorem FlowGraph.Refs.successors (h : g.Refs P) : ∀ x ∈ g.successors n kind, P .node x := by
  intro x hx
  obtain ⟨e, -, he⟩ := List.mem_filterMap.1 hx
  obtain ⟨a, ha, rfl⟩ := Option.map_eq_some_iff.1 he
  exact (h.edge? ha).target

theorem FlowGraph.Refs.predecessors (h : g.Refs P) : ∀ x ∈ g.predecessors n kind, P .node x := by
  intro x hx
  obtain ⟨e, -, he⟩ := List.mem_filterMap.1 hx
  obtain ⟨a, ha, rfl⟩ := Option.map_eq_some_iff.1 he
  exact (h.edge? ha).source

theorem FlowGraph.Refs.copySuccessors (h : g.Refs P) : ∀ x ∈ g.copySuccessors n, P .node x := by
  intro x hx
  obtain ⟨kind, -, hx⟩ := List.mem_flatMap.1 hx
  exact h.successors x hx

end Neighbours

namespace Solver

/-- Every position that the solver stores exists. -/
structure InRange (scene : Scene) (k : Table → Nat) (v : Solver) : Prop
    extends v.Refs (scene.Within (v.graph.sizes k)) where
  places : ∀ r ∈ v.graph.representatives, scene.place? r.2 = .ok (some r.1)
  cursor : v.cursor ≤ v.graph.addressEdges.size

/-- What solving keeps. It fails only if the scene is not well-formed, with a fault, or if the fuel is
spent. -/
def guard (scene : Scene) (k : Table → Nat) : Guard Failure Solver where
  Holds v := 0 < k .context ∧ v.InRange scene k
  Later v v' := v.graph.Widens v'.graph
  Fails e v := (e = .outOfFuel ∨ (∃ f, e = .fault f) ∧ ¬ scene.WellFormed) ∧ v.InRange scene k
  refl v := .refl v.graph
  trans := .trans

/-- What solving keeps, also where it fails. -/
def watch (scene : Scene) (k : Table → Nat) (w : FlowGraph.Watch) : Guard Failure Solver :=
  ((growth scene).when w.Ordered).both (guard scene k) w.Strict

/-- A node that is an object, if it has to be one, and that exists. -/
def Offer (w : FlowGraph.Watch) (v : Solver) (o : NodeId) : Prop :=
  (w.Ordered → v.graph.IsObject o) ∧ v.graph.Sees w o

abbrev Offers (w : FlowGraph.Watch) (v : Solver) (set : ObjectSet) : Prop :=
  ∀ o, set.contains o = true → v.Offer w o

variable {scene : Scene} {k : Table → Nat} {w : FlowGraph.Watch} {v t : Solver} {n : NodeId}

theorem sees_later (hl : (watch scene k w).Later v t) (h : v.graph.Sees w n) : t.graph.Sees w n :=
  fun hstrict => (h hstrict).mono (hl.2 hstrict)

theorem Offer.later (h : v.Offer w n) (hl : (watch scene k w).Later v t) : t.Offer w n :=
  ⟨fun hw => (hl.1 hw).isObject (h.1 hw), sees_later hl h.2⟩

theorem offers_get (hv : (watch scene k w).Holds v) (n : NodeId) : v.Offers w (v.points.get n) :=
  fun o ho => ⟨fun h => (hv.1 h).points n o ho, fun h => ((hv.2 h).2.points n o ho).2⟩

theorem watch_record {V : Prop} (hv : (watch scene k w).Holds v)
    (h : w.Ordered → v.Changes scene t) (hgraph : t.graph = v.graph) (hV : V)
    (ht : w.Strict → v.InRange scene k → t.InRange scene k) :
    (watch scene k w).Holds t ∧ (watch scene k w).Later v t ∧ V := by
  have hl : v.graph.Widens t.graph := hgraph ▸ .refl _
  exact ⟨⟨fun hw => (h hw).ordered (hv.1 hw), fun h => (hv.2 h).imp_right (ht h)⟩,
    ⟨h, fun _ => hl⟩, hV⟩

end Solver

namespace Solving
open Solver

variable {scene : Scene} {k : Table → Nat} {w : FlowGraph.Watch} {v : Solver} {α : Type} {n : NodeId}
  {objects : ObjectSet} {listed retrigger : List NodeId} {updates : List (NodeId × ObjectSet)}

theorem watch_onGraph {m : Growing α} {V : FlowGraph → α → Prop}
    (hm : (FlowGraph.watch scene k w).Safe v.graph m V) :
    (watch scene k w).Safe v (onGraph m) fun t a =>
      V t.graph a ∧ t = { v with graph := t.graph } := by
  intro hv
  have hout := hm ⟨fun h => (hv.1 h).graph, fun h => ⟨(hv.2 h).1, (hv.2 h).2.graph, (hv.2 h).2.places⟩⟩
  have hstate : ∀ g : FlowGraph, w.Strict → v.graph.Widens g → g.InRange scene k →
      ({ v with graph := g } : Solver).InRange scene k := fun g h hl hg =>
    { (hv.2 h).2.toRefs.mono hl.within with
      graph := hg.toRefs
      places := hg.places
      cursor := (hv.2 h).2.cursor.trans hl.addressEdges }
  simp only [onGraph]
  revert hout
  generalize m v.graph = r
  intro hout
  cases hout with
  | ok hg hl hV =>
    have hchanges := fun h => changes_graph (hl.1 h)
    exact .ok ⟨fun h => Changes.ordered (hchanges h) (hv.1 h), fun h => ⟨(hg.2 h).1,
      hstate _ h (hl.2 h) (hg.2 h).2⟩⟩ ⟨hchanges, hl.2⟩ ⟨hV, rfl⟩
  | error hl he =>
    refine .error ⟨fun h => changes_graph (hl.1 h), hl.2⟩ ⟨fun _ => trivial, fun h =>
      ⟨.inr ⟨⟨_, rfl⟩, (he.2 h).1⟩, ?_⟩⟩
    exact hstate _ h (hl.2 h) (he.2 h).2.2

theorem watch_node_bind {β : Type} {f : Node → Solving β} {W : Solver → β → Prop}
    (hn : v.graph.Sees w n) (hf : ∀ a : Node,
      (w.Strict → a.Refs (scene.Within (v.graph.sizes k))) → (watch scene k w).Safe v (f a) W) :
    (watch scene k w).Safe v (onGraph (Growing.node n) >>= f) W := by
  refine .bind (watch_onGraph (Growing.watch_node hn)) ?_
  rintro t a - ⟨⟨hg, -, ha⟩, ht⟩
  rw [hg] at ht
  subst ht
  exact hf a ha

/-- A set may grow by objects that exist. -/
theorem watch_grow {f : DiffTable → Bool × DiffTable} {P : NodeId → Prop} (hn : v.graph.Sees w n)
    (hf : v.points.Gains n P (f v.points))
    (hP : ∀ o, P o → v.Offer w o) :
    (watch scene k w).Safe v (grow n f) fun t _ =>
      t.graph = v.graph ∧ t.cursor = v.cursor := by
  have hgain : w.Ordered → v.Change scene { v with points := (f v.points).2 } := fun h =>
    .gain hf fun o ho => (hP o ho).1 h
  refine .modify fun hv => ?_
  have hpoints := fun h => (hv.2 h).2.points.gains hf (hn h) fun o ho => (hP o ho).2 h
  dsimp only
  split
  · refine watch_record hv (fun h => .tail (.single (hgain h)) (.record ..)) rfl ⟨rfl, rfl⟩ fun h hv =>
      { hv with points := hpoints h, queue := fun m hm => ?_ }
    rcases List.mem_append.1 (Queue.toList_push _ _ ▸ hm) with hm | hm
    · exact hv.queue m hm
    · cases List.mem_singleton.1 hm
      exact hn h
  · exact watch_record hv (fun h => .single (hgain h)) rfl ⟨rfl, rfl⟩ fun h hv =>
      { hv with points := hpoints h }

theorem watch_join (hn : v.graph.Sees w n) (ho : v.Offers w objects) :
    (watch scene k w).Runs v (join n objects) :=
  (watch_grow hn (DiffTable.join_gains _ _ _) ho).runs

/-- Address edges come from objects. The cursor stays within them. -/
theorem watch_addAddresses {edges : List EdgeId} (h : ∀ e ∈ edges, e ∈ v.graph.addressEdges)
    (hcursor : w.Strict → v.cursor + edges.length ≤ v.graph.addressEdges.size) :
    (watch scene k w).Runs v (addAddresses edges) := by
  induction edges generalizing v with
  | nil => exact .pure trivial
  | cons e rest ih =>
    have hnext : w.Strict → v.cursor + 1 + rest.length ≤ v.graph.addressEdges.size := fun hstrict =>
      (Nat.add_right_comm ..).le.trans (hcursor hstrict)
    refine .bind (V := fun t _ => t = { v with cursor := v.cursor + 1 }) (.modify fun hv =>
      watch_record hv (fun _ => .single (.record ..)) rfl rfl fun h hv =>
        { hv with cursor := Nat.le_of_add_right_le (hnext h) }) ?_
    rintro _ - - rfl
    refine .get_bind (.of_holds fun hv => ?_)
    dsimp only
    split
    · next edge hedge =>
      have hobject : w.Ordered → v.graph.IsObject edge.source := fun hw => by
        obtain ⟨e', he', hobject⟩ := (hv.1 hw).graph.addresses e (h e (.head _))
        cases Option.some.inj (he'.symm.trans hedge)
        exact hobject
      have hrefs := fun h => (hv.2 h).2.graph.edge? hedge
      refine .bind (watch_grow (fun h => (hrefs h).target) (DiffTable.add_gains _ _ _) ?_) ?_
      · rintro _ rfl
        exact ⟨hobject, fun h => (hrefs h).source⟩
      · rintro t - - ⟨hgraph, hc⟩
        refine ih (fun i hi => ?_) ?_
        · exact hgraph ▸ h i (.tail _ hi)
        · rw [hgraph, hc]
          exact hnext
    · exact ih (fun i hi => h i (.tail _ hi)) hnext

theorem watch_connect {field : NodeId} {loads stores : List NodeId} (hfield : v.graph.Sees w field)
    (hloads : ∀ x ∈ loads, v.graph.Sees w x) (hstores : ∀ x ∈ stores, v.graph.Sees w x) :
    (watch scene k w).Runs v (connect field loads stores) := by
  -- an edge between two nodes passes on what its source points to
  have hlink : ∀ (t : Solver) (a b : NodeId), t.graph.Sees w a → t.graph.Sees w b →
      (watch scene k w).Runs t (do
        if (← onGraph (Growing.addEdge a b .copy none)).isSome then
          join b ((← get).points.get a)) := by
    intro t a b ha hb
    refine .next (watch_onGraph (Growing.watch_addEdge nofun ha hb nofun)) fun u e hl => ?_
    split
    · exact .of_holds fun hu => watch_join (sees_later hl hb) (offers_get hu a)
    · exact .pure trivial
  refine .next (.forM fun t x hl hx => ?_) fun t _ hl => .forM fun u x hl' hx => ?_
  · exact hlink t field x (sees_later hl hfield) (sees_later hl (hloads x hx))
  · have hl := (watch scene k w).trans hl hl'
    exact hlink u x field (sees_later hl (hstores x hx)) (sees_later hl hfield)

theorem watch_access {fieldRef : NodeId} (hlisted : ∀ o ∈ listed, v.graph.Sees w o)
    (hr : v.graph.Sees w fieldRef) : (watch scene k w).Runs v (access listed fieldRef) := by
  refine .get_bind (.of_holds fun hv => ?_)
  extract_lets graph loads stores
  split
  · exact .pure trivial
  have hloads : ∀ x ∈ loads, v.graph.Sees w x := fun x hx h => (hv.2 h).2.graph.successors x hx
  have hstores : ∀ x ∈ stores, v.graph.Sees w x := fun x hx h => (hv.2 h).2.graph.predecessors x hx
  refine .forM fun t o hl ho => ?_
  have ho := sees_later hl (hlisted o ho)
  refine watch_node_bind ho fun a _ => ?_
  split
  · refine .bind (watch_onGraph (Growing.watch_fieldOf (sees_later hl hr) ho)) fun u x? hl' hx => ?_
    have hl := (watch scene k w).trans hl hl'
    split
    · exact watch_connect (hx.1 _ rfl) (fun x hx => sees_later hl (hloads x hx))
        fun x hx => sees_later hl (hstores x hx)
    · exact .pure trivial
  · exact .pure trivial

theorem watch_report (hn : v.graph.Sees w n) (hlisted : ∀ o ∈ listed, v.graph.Sees w o) :
    (watch scene k w).Runs v (report n listed) := by
  refine watch_node_bind hn fun a _ => ?_
  extract_lets hasCalls
  split
  · refine .modify fun hv => watch_record hv (fun _ => .single (.record ..)) rfl trivial fun h hv =>
      { hv with receivers := forall_insert_map hv.receivers ⟨hn h, fun o ho => ?_⟩ }
    have hold : ∀ o ∈ (v.receivers[n]?).getD ∅, v.graph.HasNode o :=
      getD_of_forall (R := fun os => ∀ o ∈ os, v.graph.HasNode o)
        (fun os hos => (hv.receivers n os hos).2) (by simp)
    exact ((mem_foldl_insert _ _ _).1 ho).elim (hold o) fun ho => hlisted o ho h
  · exact .pure trivial

theorem watch_propagate (hn : v.graph.Sees w n) (ho : v.Offers w objects) :
    (watch scene k w).Runs v (propagate n objects) := by
  refine .get_bind (.of_holds fun hv => ?_)
  refine .next (.forM fun t x hl hx => watch_join ?_ fun o hmem =>
    (ho o hmem).later hl) fun t _ hl => .get_bind ?_
  · exact sees_later hl fun h => (hv.2 h).2.graph.copySuccessors x hx
  extract_lets listed
  have hlisted : ∀ o ∈ listed, t.graph.Sees w o := fun o hmem =>
    ((ho o (Collection.mem_enumerate.1 hmem)).later hl).2
  refine watch_node_bind (sees_later hl hn) fun a ha => ?_
  refine .next (.forM fun u r hl' hr => ?_) fun u _ hl' => ?_
  · exact watch_access (fun o hmem => sees_later hl' (hlisted o hmem)) (sees_later hl' fun h =>
      (ha h).fieldRefs r (Array.mem_toList_iff.1 hr))
  · exact watch_report (sees_later hl' (sees_later hl hn)) fun o hmem => sees_later hl' (hlisted o hmem)

theorem watch_process (hn : v.graph.Sees w n) : (watch scene k w).Runs v (process n) := by
  refine .get_bind ?_
  extract_lets points objects
  split
  · refine .bind (V := fun t _ => t.Offers w objects ∧ t.graph.Sees w n) (.modify fun hv =>
      watch_record hv (fun _ => .single (.flush n)) rfl ⟨fun o ho => ?_, hn⟩ fun _ hv =>
        { hv with points := hv.points.flush n }) fun t _ _ ht => watch_propagate ht.2 ht.1
    exact offers_get hv n o (DiffTable.has_iff.2 (.inr ho))
  · exact .pure trivial

/-- The nodes in the queue exist. -/
theorem watch_drain (fuel : Nat) : (watch scene k w).Runs v (drain fuel) := by
  induction fuel generalizing v with
  | zero => exact .throw fun hv => ⟨fun _ => trivial, fun h => ⟨.inl rfl, (hv.2 h).2⟩⟩
  | succ fuel ih =>
    refine .get_bind (.of_holds fun hv => ?_)
    split
    · exact .pure trivial
    · next n queue hpop =>
      have hqueue := Queue.toList_of_pop? hpop
      refine .bind (V := fun t _ => t.graph.Sees w n) (.modify fun _ => watch_record hv
        (fun _ => .single (.record ..)) rfl (fun h => ?_) fun _ hv => { hv with queue := fun m hm => ?_ })
        fun t _ _ hn => ?_
      · exact (hv.2 h).2.queue n (hqueue ▸ .head _)
      · exact hv.queue m (hqueue ▸ .tail _ hm)
      · exact .next (watch_process hn) fun u _ _ => ih

section Inputs

variable (hr : ∀ n ∈ retrigger, v.graph.Sees w n)
  (hu : ∀ u ∈ updates, v.graph.Sees w u.1 ∧ v.Offers w u.2)
include hr hu

theorem watch_start : (watch scene k w).Runs v (start retrigger updates) := by
  refine .get_bind (.of_holds fun hv => ?_)
  refine .next (watch_addAddresses (fun e he => ?_) fun h => ?_) fun t _ hl => ?_
  · exact Array.mem_toList_iff.1 (List.mem_of_mem_drop he)
  · have := (hv.2 h).2.cursor
    simp only [List.length_drop, Array.length_toList]
    omega
  refine .next (.forM fun t u hl' hmem => ?_) fun t _ hl' => .forM fun u n hl'' hmem => ?_
  · have hl := (watch scene k w).trans hl hl'
    exact watch_join (sees_later hl (hu u hmem).1) fun o ho => ((hu u hmem).2 o ho).later hl
  · refine .get_bind (.of_holds fun hu => ?_)
    extract_lets objects
    split
    · exact watch_propagate (sees_later hl'' (sees_later hl' (sees_later hl (hr n hmem)))) (offers_get hu n)
    · exact .pure trivial

/-- Solving keeps to objects that exist if it is given such objects. -/
theorem watch_solve : (watch scene k w).Runs v (solve retrigger updates) :=
  .get_bind (.next (watch_start hr hu) fun _ _ _ => watch_drain _)

end Inputs

end Solving

end PointsTo
