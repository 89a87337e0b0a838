import PointsTo.Proofs.Solver.Passing

/-! The solver delivers one object to a node that passes on nothing. -/
namespace PointsTo

/-- Whether a node has calls and passes on nothing to other nodes. -/
structure FlowGraph.IsReceiver (g : FlowGraph) (n : NodeId) : Prop where
  sink : g.copySuccessors n = []
  calls : ∃ a info, g.At n a ∧ a.fieldRefs = #[] ∧ a.pointer? = some info ∧ info.hasCalls = true

/-- A set with one element is listed as such. -/
theorem toList_of_forall_mem_iff {t : Std.TreeSet NodeId} {o : NodeId}
    (h : ∀ x, x ∈ t ↔ x = o) :
    t.toList = [o] := by
  have hmem : ∀ x, x ∈ t.toList ↔ x = o := fun x => Std.TreeSet.mem_toList.trans (h x)
  have hdistinct := Std.TreeSet.distinct_toList (t := t)
  cases hl : t.toList with
  | nil => simp [hl] at hmem
  | cons x l =>
    rw [hl] at hmem hdistinct
    obtain rfl : x = o := (hmem x).1 (.head _)
    cases l with
    | nil => rfl
    | cons y l =>
      obtain rfl : y = x := (hmem y).1 (.tail _ (.head _))
      exact absurd Std.ReflCmp.compare_self (List.rel_of_pairwise_cons hdistinct (.head _))

namespace FlowGraph

variable {g : FlowGraph}

theorem achieves_node_bind {β : Type} {n : NodeId} {a : Node} {f : Node → Growing β}
    {R : β → FlowGraph → Prop} (ha : g.At n a) (h : Achieves (f a) g R) :
    Achieves (Growing.node n >>= f) g R := by
  apply achieves_bind_ok _ h
  simp only [Growing.node, node_eq_ok.2 ha]

/-- An edge between two nodes of the graph is added unless it is there already. -/
theorem achieves_addEdge {a b : NodeId} {k : EdgeKind} {stmt : Option StmtId}
    (ha : a.index < g.nodes.size) (hb : b.index < g.nodes.size) :
    Achieves (Growing.addEdge a b k stmt) g fun r g' =>
      (r = none ∧ g.hasEdge a b k = true ∧ g' = g) ∨
      (r.isSome = true ∧ g.hasEdge a b k = false ∧ g' = g.withEdge a b k stmt) := by
  refine achieves_get_bind ?_
  split
  · next hedge => exact achieves_pure (.inl ⟨rfl, hedge, rfl⟩)
  · next hedge =>
    refine achieves_node_bind (Array.getElem?_eq_getElem ha) ?_
    refine achieves_node_bind (Array.getElem?_eq_getElem hb) ?_
    exact achieves_modifyGet (.inr ⟨rfl, Bool.eq_false_iff.2 hedge, rfl⟩)

end FlowGraph

namespace Solver

variable {v : Solver} {n o : NodeId}

theorem achieves_onGraph_node_bind {β : Type} {a : Node} {f : Node → Solving β}
    {R : β → Solver → Prop} (ha : v.graph.At n a) (h : Achieves (f a) v R) :
    Achieves (Solving.onGraph (Growing.node n) >>= f) v R := by
  apply achieves_bind_ok _ h
  simp only [Solving.onGraph, Growing.node, FlowGraph.node_eq_ok.2 ha]

/-- The state of the solver after a node was told objects. -/
def telling (v : Solver) (n : NodeId) (objects : Std.TreeSet NodeId) : Solver :=
  { v with receivers := (∅ : Std.TreeMap NodeId (Std.TreeSet NodeId)).insert n objects }

theorem achieves_propagate (h : v.graph.IsReceiver n) (hnone : v.receivers = ∅)
    {objects : ObjectSet} (hobjects : ∀ x, objects.contains x = true ↔ x = o) :
    Achieves (Solving.propagate n objects) v fun _ v' => ∃ told : Std.TreeSet NodeId,
      told.toList = [o] ∧ v' = v.telling n told := by
  obtain ⟨a, info, ha, hrefs, hp, hcalls⟩ := h.calls
  refine achieves_get_bind ?_
  rw [h.sink]
  refine achieves_forM_nil_bind (achieves_get_bind (achieves_onGraph_node_bind ha ?_))
  rw [hrefs]
  refine achieves_forM_nil_bind (achieves_onGraph_node_bind ha ?_)
  simp only [hp, Option.map_some, Option.getD_some, hcalls, if_true]
  refine achieves_modify
    ⟨(v.points.collection.enumerate objects).foldl (·.insert ·) ∅, ?_, ?_⟩
  · apply toList_of_forall_mem_iff
    intro x
    simp [mem_foldl_insert, Collection.mem_enumerate, hobjects]
  · simp [telling, hnone]

theorem achieves_process (h : v.graph.IsReceiver n) (hnone : v.receivers = ∅)
    (howes : ∀ x, v.points.Owes n x ↔ x = o) :
    Achieves (Solving.process n) v fun _ v' => ∃ told : Std.TreeSet NodeId,
      told.toList = [o] ∧ v' = ({ v with points := v.points.flush n } : Solver).telling n told := by
  have hpending : v.points.hasPending n = true := DiffTable.hasPending_iff.2 ⟨o, (howes o).2 rfl⟩
  refine achieves_get_bind ?_
  simp only [hpending, if_true]
  refine achieves_bind (Q := fun _ v₁ => v₁ = { v with points := v.points.flush n })
    (achieves_modify rfl) ?_
  rintro _ _ rfl
  exact achieves_propagate (v := { v with points := v.points.flush n }) h hnone howes

/-- The object of the one new address edge is put into the set of its target. -/
theorem achieves_start {i : EdgeId} {e : FlowEdge}
    (hdrop : v.graph.addressEdges.toList.drop v.cursor = [i]) (he : v.graph.edge? i = some e)
    (hgrew : (v.points.add e.target e.source).1 = true) :
    Achieves (Solving.start [] []) v fun _ v' => v' = { v with
      cursor := v.cursor + 1, points := (v.points.add e.target e.source).2, changed := true
      queue := v.queue.push e.target } := by
  refine achieves_get_bind ?_
  rw [hdrop, Solving.addAddresses]
  refine achieves_bind (Q := fun _ v' => v' = { v with
    cursor := v.cursor + 1, points := (v.points.add e.target e.source).2, changed := true
    queue := v.queue.push e.target }) ?_ ?_
  · refine achieves_bind (Q := fun _ v₁ => v₁ = { v with cursor := v.cursor + 1 })
      (achieves_modify rfl) ?_
    rintro _ _ rfl
    refine achieves_get_bind ?_
    simp only [he]
    refine achieves_bind (achieves_modify ?_) fun _ v' h' => achieves_pure h'
    simp only [hgrew, if_true]
  · exact fun _ v₁ h₁ => achieves_forM_nil_bind (achieves_pure h₁)

/-- If the only news is one object for a node with calls, the solver tells that node. -/
theorem achieves_solve (h : v.graph.IsReceiver n) (hqueue : v.queue = {}) (hnone : v.receivers = ∅)
    {i : EdgeId} {e : FlowEdge} (hdrop : v.graph.addressEdges.toList.drop v.cursor = [i])
    (he : v.graph.edge? i = some e) (hsource : e.source = o) (htarget : e.target = n)
    (hfresh : ¬ v.points.Has n o) (hsettled : ∀ x, ¬ v.points.Owes n x) :
    Achieves (Solving.solve [] []) v fun _ v' => ∃ told : Std.TreeSet NodeId,
      told.toList = [o] ∧ v' = ({ v with
        cursor := v.cursor + 1, points := (v.points.add n o).2.flush n, changed := true } :
        Solver).telling n told := by
  subst hsource htarget
  have hgains := v.points.add_gains e.target e.source
  have hpassed : ¬ v.points.Passed e.target e.source :=
    fun hp => hfresh (DiffTable.has_iff.2 (.inl hp))
  have howes : ∀ x, (v.points.add e.target e.source).2.Owes e.target x ↔ x = e.source := by
    intro x
    rw [hgains.owes]
    constructor
    · rintro (hx | ⟨-, hx, -⟩)
      · exact absurd hx (hsettled x)
      · exact hx
    · rintro rfl
      exact .inr ⟨rfl, rfl, hpassed⟩
  obtain ⟨fuel, hfuel⟩ : ∃ fuel, Solving.budget v [] = fuel + 2 := by
    obtain ⟨a, info, ha, -⟩ := h.calls
    have hsize := Nat.zero_lt_of_lt ha.lt_size
    have hpos : 0 < Solving.budget v [] - 1 :=
      Nat.mul_pos (Nat.add_pos_left (Nat.add_pos_left hsize _) _) (Nat.add_pos_left hsize _)
    exact ⟨Solving.budget v [] - 2, by omega⟩
  refine achieves_get_bind ?_
  rw [hfuel]
  refine achieves_bind (achieves_start hdrop he (hgains.grew.2 ⟨_, rfl, hfresh⟩)) ?_
  rintro _ _ rfl
  rw [hqueue, Solving.drain]
  refine achieves_get_bind ?_
  dsimp only [Queue.push, Queue.pop?, List.reverse_cons, List.reverse_nil, List.nil_append]
  refine achieves_bind (Q := fun _ v₁ => v₁ = { v with
    cursor := v.cursor + 1, points := (v.points.add e.target e.source).2, changed := true })
    (achieves_modify ?_) ?_
  · rw [hqueue]
  rintro _ _ rfl
  refine achieves_bind (achieves_process h hnone howes) ?_
  rintro _ _ ⟨told, htold, rfl⟩
  rw [Solving.drain]
  refine achieves_get_bind ?_
  simp only [telling, hqueue]
  exact achieves_pure ⟨told, htold, rfl⟩

end Solver

end PointsTo
