import Mathlib.Data.List.Nodup
import PointsTo.Proofs.Call.Edges

/-! Nodes and calls may be added to a call graph in any order. Its tables always find each other's
entries, and a method keeps the first kind that it is given. -/
namespace PointsTo

namespace CallGraph

variable {g : CallGraph} {i : SiteId} {m m' caller callee : MethodId} {kind : MethodKind}
  {type : CallType}

/-- The search goes from a method to another one along at least one edge. -/
theorem Coherent.reaches_iff_calls (h : g.Coherent) : g.reaches m m' = true ↔ m = m' ∨
    ∃ k l, g.nodeOf[m]? = some k ∧ g.nodeOf[m']? = some l ∧ Relation.TransGen g.Calls k l := by
  rw [reaches_iff]
  constructor
  · rintro (rfl | ⟨k, l, hk, hl, hpath⟩)
    · exact .inl rfl
    · rcases Relation.reflTransGen_iff_eq_or_transGen.1 hpath with rfl | hpath
      · exact .inl (h.nodeOf_inj hk hl)
      · exact .inr ⟨k, l, hk, hl, hpath⟩
  · refine Or.imp_right ?_
    rintro ⟨k, l, hk, hl, hpath⟩
    exact ⟨k, l, hk, hl, hpath.to_reflTransGen⟩

/-- The kind of a method, blank as long as it has no node. -/
def kindD (g : CallGraph) (m : MethodId) : MethodKind := (g.kindOf? m).getD .blank

theorem kindD_of_nodes {k : Nat} {n : CallNode} (hm : g.nodeOf[m]? = some k)
    (hn : g.nodes[k]? = some n) : g.kindD m = n.kind := by
  simp [kindD, kindOf?, hm, hn]

theorem Coherent.kindD_touch (h : g.Coherent) (m m' : MethodId) :
    (g.touch m).2.kindD m' = g.kindD m' := by
  unfold CallGraph.touch
  cases hm : g.nodeOf[m]? with
  | some => rfl
  | none =>
    by_cases heq : m = m'
    · subst heq
      simp [kindD, kindOf?, hm]
    cases hk : g.nodeOf[m']? with
    | none => simp [kindD, kindOf?, getElem?_insert, heq, hk]
    | some k =>
      obtain ⟨n, hn, -⟩ := Option.map_eq_some_iff.1 (h.nodeOf_iff.1 hk)
      rw [kindD_of_nodes hk hn]
      refine kindD_of_nodes (k := k) ?_ (getElem?_push_of_eq_some hn)
      rw [getElem?_insert, if_neg heq, hk]

theorem Coherent.kindD_addEdge (h : g.Coherent) :
    (g.addEdge i caller callee type).2.kindD m = g.kindD m := by
  unfold CallGraph.addEdge
  dsimp only
  split <;> exact (h.touch.kindD_touch callee m).trans (h.kindD_touch caller m)

theorem Coherent.kindD_addNode (h : g.Coherent) : (g.addNode m kind).2.kindD m' =
    if m = m' ∧ g.kindD m = .blank then kind else g.kindD m' := by
  rw [← h.kindD_touch m m, ← h.kindD_touch m m']
  have hi := nodeOf_touch (g := g) (m := m)
  obtain ⟨n, hn, -⟩ := Option.map_eq_some_iff.1 (h.touch.nodeOf_iff.1 hi)
  by_cases heq : m = m'
  · subst heq
    rw [kindD_of_nodes hi hn]
    refine (kindD_of_nodes (g := (g.addNode m kind).2) hi ?_ (n :=
      if n.kind = .blank then { n with kind } else n)).trans ?_
    · simp [CallGraph.addNode, Array.getElem?_modify, hn]
    · grind
  · simp only [heq, false_and, if_false, kindD, kindOf?, CallGraph.addNode]
    cases hk : (g.touch m).2.nodeOf[m']? with
    | none => rfl
    | some k =>
      have hne : (g.touch m).1 ≠ k := by
        rintro rfl
        exact heq (h.touch.nodeOf_inj hi hk)
      simp [Array.getElem?_modify, hne]

theorem mem_nodeOf_touch : m' ∈ (g.touch m).2.nodeOf ↔ m' ∈ g.nodeOf ∨ m' = m := by
  unfold touch
  cases hm : g.nodeOf[m]? with
  | some => grind
  | none =>
    rw [mem_insert_map]
    grind

end CallGraph

/-- An addition to a call graph. Calls that are found before the analysis, during it, and by the model
of a platform method are edges of the three types. -/
inductive CallChange where
  | addNode (m : MethodId) (kind : MethodKind)
  | addEdge (site : SiteId) (caller callee : MethodId) (type : CallType)

namespace CallChange

open CallGraph (Coherent)

variable {g : CallGraph} {i : SiteId} {m m' : MethodId}

/-- The graph after an addition. -/
def apply (g : CallGraph) : CallChange → CallGraph
  | .addNode m kind => (g.addNode m kind).2
  | .addEdge site caller callee type => (g.addEdge site caller callee type).2

/-- The graph after some additions. -/
def run (g : CallGraph) (ops : List CallChange) : CallGraph := ops.foldl apply g

/-- The methods that an addition is about. -/
def methods : CallChange → List MethodId
  | .addNode m _ => [m]
  | .addEdge _ caller callee _ => [caller, callee]

/-- The kind that an addition gives to a method. -/
def given? (m : MethodId) : CallChange → Option MethodKind
  | .addNode m' kind => if m' = m then some kind else none
  | .addEdge .. => none

/-- The first kind other than blank that a method is given. -/
def firstKind (m : MethodId) (ops : List CallChange) : MethodKind :=
  ((ops.filterMap (given? m)).find? (· ≠ .blank)).getD .blank

theorem coherent_apply (h : g.Coherent) (op : CallChange) : (op.apply g).Coherent := by
  cases op with
  | addNode => exact h.addNode
  | addEdge => exact h.addEdge

theorem coherent_run (h : g.Coherent) (ops : List CallChange) : (run g ops).Coherent := by
  induction ops generalizing g with
  | nil => exact h
  | cons op ops ih => exact ih (coherent_apply h op)

theorem kindD_run (h : g.Coherent) (ops : List CallChange) : (run g ops).kindD m =
    if g.kindD m = .blank then firstKind m ops else g.kindD m := by
  induction ops generalizing g with
  | nil => simp [run, firstKind]
  | cons op ops ih =>
    rw [run, List.foldl_cons, ← run, ih (coherent_apply h op)]
    cases op with
    | addNode m' kind =>
      rw [apply, h.kindD_addNode]
      simp only [firstKind, List.filterMap_cons, given?]
      grind
    | addEdge => rw [apply, h.kindD_addEdge]; rfl

theorem mem_nodeOf_run (ops : List CallChange) :
    m ∈ (run g ops).nodeOf ↔ m ∈ g.nodeOf ∨ ∃ op ∈ ops, m ∈ op.methods := by
  induction ops generalizing g with
  | nil => simp [run]
  | cons op ops ih =>
    rw [run, List.foldl_cons, ← run, ih, List.exists_mem_cons_iff, ← or_assoc]
    refine or_congr_left ?_
    cases op with
    | addNode m' kind => simp [apply, CallGraph.addNode, methods, CallGraph.mem_nodeOf_touch]
    | addEdge i caller callee type =>
      unfold apply CallGraph.addEdge
      dsimp only
      split <;> simp [CallGraph.mem_nodeOf_touch, methods, or_assoc]

theorem grows_apply (g : CallGraph) (op : CallChange) : g.Grows {} (op.apply g) := by
  cases op with
  | addNode => exact CallGraph.addNode_grows
  | addEdge => exact CallGraph.addEdge_grows

theorem grows_run (g : CallGraph) (ops : List CallChange) : g.Grows {} (run g ops) := by
  induction ops generalizing g with
  | nil => exact .refl g
  | cons op ops ih => exact (grows_apply g op).trans (ih (op.apply g))

/-- An edge is there if it was before or if it was asked for. -/
theorem asked_of_mem_edges {ops : List CallChange} {e : CallEdge} (he : e ∈ (run g ops).edges) :
    e ∈ g.edges ∨ ∃ caller callee, .addEdge e.site caller callee e.type ∈ ops ∧
      (run g ops).nodeOf[caller]? = some e.caller ∧ (run g ops).nodeOf[callee]? = some e.callee := by
  induction ops generalizing g with
  | nil => exact .inl he
  | cons op ops ih =>
    rcases ih he with he | ⟨caller, callee, hop, hends⟩
    · cases op with
      | addNode => exact .inl (CallGraph.edges_addNode ▸ he)
      | addEdge i caller callee type =>
        obtain ⟨t, -, -, hedges, a, b, ha, hb, ⟨-, heq⟩ | ⟨-, heq⟩⟩ :=
          CallGraph.addEdge_cases {} g i caller callee type
        · rw [apply, heq, hedges] at he
          exact .inl he
        have hg := grows_run ((addEdge i caller callee type).apply g) ops
        rw [apply, heq] at he hg
        rcases Array.mem_push.1 he with he | rfl
        · exact .inl (hedges ▸ he)
        · rw [run, List.foldl_cons, apply, heq]
          exact .inr ⟨caller, callee, .head _, hg.nodeOf _ _ ha, hg.nodeOf _ _ hb⟩
    · exact .inr ⟨caller, callee, .tail _ hop, hends⟩

theorem hasEdge_run (h : g.Coherent) {ops : List CallChange} {caller callee : MethodId}
    {type : CallType} (hop : .addEdge i caller callee type ∈ ops) :
    (run g ops).hasEdge i callee = true := by
  rw [(coherent_run h ops).hasEdge_iff]
  induction ops generalizing g with
  | nil => cases hop
  | cons op ops ih =>
    rcases List.mem_cons.1 hop with rfl | hop
    · obtain ⟨m, hm, -⟩ := CallGraph.addEdge_joins h i caller callee type
      exact ⟨m, hm.mono (grows_run _ ops)⟩
    · exact ih (coherent_apply h op) hop

/-- After any additions to a new graph, the methods are listed once each as the nodes stand, and the
table of the nodes is the inverse of this list. The methods are those that the additions are about.
A call site has one edge at most to a method: to those that were asked for, as one of the requests has
it. The table of the edges has those of each site. A node has the first kind that was given to it.
One method reaches another exactly if they are the same or a chain of edges leads to it. -/
theorem indexes_calls (ops : List CallChange) :
    let g := run {} ops
    g.reached.toList.Nodup ∧
      (∀ k : Nat, g.reached[k]? = (g.nodes[k]?).map (·.method)) ∧
      (∀ (m : MethodId) (k : Nat), g.nodeOf[m]? = some k ↔ g.reached[k]? = some m) ∧
      (∀ m, m ∈ g.reached ↔ ∃ op ∈ ops, m ∈ op.methods) ∧
      (∀ (k l : Nat) e e', g.edges[k]? = some e → g.edges[l]? = some e' → e.site = e'.site →
        e.callee = e'.callee → k = l) ∧
      (∀ e ∈ g.edges, ∃ caller callee, .addEdge e.site caller callee e.type ∈ ops ∧
        g.nodeOf[caller]? = some e.caller ∧ g.nodeOf[callee]? = some e.callee) ∧
      (∀ i caller callee type, .addEdge i caller callee type ∈ ops → g.hasEdge i callee = true) ∧
      (∀ i : SiteId, ((g.siteEdges[i]?).getD []).Nodup ∧ ∀ k : Nat,
        k ∈ (g.siteEdges[i]?).getD [] ↔ ∃ e, g.edges[k]? = some e ∧ e.site = i) ∧
      (∀ (k : Nat) n, g.nodes[k]? = some n → n.kind = firstKind n.method ops) ∧
      ∀ a b : MethodId, g.reaches a b = true ↔ a = b ∨ ∃ k l, g.nodeOf[a]? = some k ∧
        g.nodeOf[b]? = some l ∧ Relation.TransGen g.Calls k l := by
  intro g
  have hempty : Coherent {} := CallGraph.coherent_empty
  have h : g.Coherent := coherent_run hempty ops
  refine ⟨?_, fun k => ?_, h.named, fun m => ?_, h.once, fun e he => ?_,
    fun i caller callee type => hasEdge_run hempty, fun i => ⟨h.distinct i, h.sited i⟩,
    fun k n hn => ?_, fun a b => h.reaches_iff_calls⟩
  · refine List.nodup_iff_getElem?_ne_getElem?.2 fun k l hkl hl heq => ?_
    rw [Array.length_toList] at hl
    simp only [Array.getElem?_toList, Array.getElem?_eq_getElem hl, ← h.named] at heq
    have hself := (h.named _ l).2 (Array.getElem?_eq_getElem hl)
    cases heq.symm.trans hself
    exact Nat.lt_irrefl k hkl
  · rw [h.methods, Array.getElem?_map]
  · simp only [Array.mem_iff_getElem?, ← h.named]
    rw [← Option.isSome_iff_exists, ← Std.TreeMap.mem_iff_isSome_getElem?, mem_nodeOf_run]
    simp
  · exact (asked_of_mem_edges he).resolve_left (by simp)
  · have hm : g.nodeOf[n.method]? = some k := h.nodeOf_iff.2 (by rw [hn, Option.map_some])
    rw [← CallGraph.kindD_of_nodes hm hn, kindD_run hempty]
    rfl

end CallChange

end PointsTo
