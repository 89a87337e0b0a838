import PointsTo.Proofs.Call.Reach

/-! The methods at the ends of the edges of a call graph. -/
namespace PointsTo.CallGraph

/-- An edge leads from one method to another. -/
def Invokes (g : CallGraph) (m m' : MethodId) : Prop :=
  ∃ e ∈ g.edges, (g.nodes[e.caller]?).map (·.method) = some m ∧
    (g.nodes[e.callee]?).map (·.method) = some m'

/-- A call site leads from one method to another. -/
def Joins (g : CallGraph) (i : SiteId) (m m' : MethodId) : Prop :=
  ∃ e ∈ g.edges, e.site = i ∧ g.nodeOf[m]? = some e.caller ∧ g.nodeOf[m']? = some e.callee

/-- Calls lead from one method to another. -/
abbrev Leads (g : CallGraph) : MethodId → MethodId → Prop :=
  Relation.ReflTransGen fun m m' => ∃ i, g.Joins i m m'

/-- The tables of a call graph fit its nodes and edges, and no call site has two edges to one
method. -/
structure Coherent (g : CallGraph) : Prop where
  methods : g.reached = g.nodes.map (·.method)
  named : ∀ (m : MethodId) (k : Nat), g.nodeOf[m]? = some k ↔ g.reached[k]? = some m
  ends : ∀ e ∈ g.edges, ∃ m m' : MethodId, g.nodeOf[m]? = some e.caller ∧
    g.nodeOf[m']? = some e.callee
  sited : ∀ (i : SiteId) (k : Nat), k ∈ (g.siteEdges[i]?).getD [] ↔
    ∃ e, g.edges[k]? = some e ∧ e.site = i
  distinct : ∀ i : SiteId, ((g.siteEdges[i]?).getD []).Nodup
  once : ∀ (k l : Nat) e e', g.edges[k]? = some e → g.edges[l]? = some e' → e.site = e'.site →
    e.callee = e'.callee → k = l

variable {g g' : CallGraph} {scene : Scene} {i : SiteId} {m m' caller callee : MethodId}

theorem coherent_empty : Coherent {} := by constructor <;> simp

theorem Joins.mono (h : g.Joins i m m') (hg : g.Grows scene g') : g'.Joins i m m' := by
  obtain ⟨e, he, rfl, hm, hm'⟩ := h
  exact ⟨e, hg.edges e he, rfl, hg.nodeOf _ _ hm, hg.nodeOf _ _ hm'⟩

theorem Leads.mono (h : g.Leads m m') (hg : g.Grows scene g') : g'.Leads m m' := by
  refine Relation.ReflTransGen.mono ?_ m m' h
  rintro a b ⟨i, hi⟩
  exact ⟨i, hi.mono hg⟩

namespace Coherent

theorem nodeOf_iff (h : g.Coherent) {k : Nat} :
    g.nodeOf[m]? = some k ↔ (g.nodes[k]?).map (·.method) = some m := by
  rw [h.named, h.methods, Array.getElem?_map]

/-- A node belongs to one method. -/
theorem nodeOf_inj (h : g.Coherent) {k : Nat} (hm : g.nodeOf[m]? = some k)
    (hm' : g.nodeOf[m']? = some k) : m = m' :=
  Option.some.inj (((h.named m k).1 hm).symm.trans ((h.named m' k).1 hm'))

theorem joins_of_mem (h : g.Coherent) {e : CallEdge} (he : e ∈ g.edges) :
    ∃ m m', (g.nodes[e.caller]?).map (·.method) = some m ∧
      (g.nodes[e.callee]?).map (·.method) = some m' ∧ g.Joins e.site m m' := by
  obtain ⟨m, m', hm, hm'⟩ := h.ends e he
  exact ⟨m, m', h.nodeOf_iff.1 hm, h.nodeOf_iff.1 hm', e, he, rfl, hm, hm'⟩

theorem invokes_of_joins (h : g.Coherent) (hj : g.Joins i m m') : g.Invokes m m' := by
  obtain ⟨e, he, -, hm, hm'⟩ := hj
  exact ⟨e, he, h.nodeOf_iff.1 hm, h.nodeOf_iff.1 hm'⟩

theorem hasEdge_iff (h : g.Coherent) : g.hasEdge i callee = true ↔ ∃ m, g.Joins i m callee := by
  simp only [hasEdge, callees, List.contains_iff_mem, List.mem_filterMap, h.sited]
  constructor
  · rintro ⟨k, ⟨e, he, rfl⟩, hcallee⟩
    obtain ⟨m, -, hm, -⟩ := h.ends e (Array.mem_of_getElem? he)
    rw [he, Option.bind_some, ← h.nodeOf_iff] at hcallee
    exact ⟨m, e, Array.mem_of_getElem? he, rfl, hm, hcallee⟩
  · rintro ⟨m, e, he, rfl, -, hcallee⟩
    obtain ⟨k, hk⟩ := Array.mem_iff_getElem?.1 he
    exact ⟨k, ⟨e, hk, rfl⟩, by rw [hk, Option.bind_some, h.nodeOf_iff.1 hcallee]⟩

/-- A method that calls lead on from has an edge of its own. -/
theorem joins_of_reaches (h : g.Coherent) (hr : g.reaches m m' = true) :
    m = m' ∨ ∃ i b, g.Joins i m b := by
  rcases reaches_iff.1 hr with rfl | ⟨a, b, ha, hb, hpath⟩
  · exact .inl rfl
  · rcases hpath.cases_head with rfl | ⟨c, ⟨e, he, rfl, rfl⟩, -⟩
    · exact .inl (h.nodeOf_inj ha hb)
    · obtain ⟨-, m₂, -, hm₂⟩ := h.ends e he
      exact .inr ⟨e.site, m₂, e, he, rfl, ha, hm₂⟩

theorem sites (h : g.Coherent) (sites : SiteTable) (stmtSites : Std.TreeMap StmtId (List SiteId)) :
    Coherent { g with sites, stmtSites } :=
  { h with }

end Coherent

section Touch

theorem nodeOf_touch : (g.touch m).2.nodeOf[m]? = some (g.touch m).1 := by
  unfold touch
  split
  · next h => exact h
  · simp

theorem edges_touch : (g.touch m).2.edges = g.edges := by
  unfold touch
  split <;> rfl

/-- An edge that was there before leads from where it did. -/
theorem Joins.of_mem (h : g.Coherent) (h' : g'.Coherent) (hg : g.Grows scene g') {e : CallEdge}
    (he : e ∈ g.edges) (hm : g'.nodeOf[m]? = some e.caller)
    (hm' : g'.nodeOf[m']? = some e.callee) : g.Joins e.site m m' := by
  obtain ⟨a, b, ha, hb⟩ := h.ends e he
  cases h'.nodeOf_inj hm (hg.nodeOf _ _ ha)
  cases h'.nodeOf_inj hm' (hg.nodeOf _ _ hb)
  exact ⟨e, he, rfl, ha, hb⟩

theorem Joins.of_edges (h : g.Coherent) (h' : g'.Coherent) (hg : g.Grows scene g')
    (hsame : g'.edges = g.edges) (hj : g'.Joins i m m') : g.Joins i m m' := by
  obtain ⟨e, he, rfl, hm, hm'⟩ := hj
  exact .of_mem h h' hg (hsame ▸ he) hm hm'

theorem Coherent.touch (h : g.Coherent) : (g.touch m).2.Coherent := by
  have hg : g.Grows {} (g.touch m).2 := touch_grows
  unfold CallGraph.touch at hg ⊢
  cases hnew : g.nodeOf[m]? with
  | some => exact h
  | none =>
    simp only [hnew] at hg
    have hsize : g.reached.size = g.nodes.size := by rw [h.methods, Array.size_map]
    refine { h with
      methods := by simp [h.methods]
      named := fun m' k => ?_
      ends := fun e he => ?_ }
    · have hm := h.named m k
      have hm' := h.named m' k
      simp only [getElem?_insert, Array.getElem?_push]
      grind
    · obtain ⟨a, b, ha, hb⟩ := h.ends e he
      exact ⟨a, b, hg.nodeOf _ _ ha, hg.nodeOf _ _ hb⟩

theorem Coherent.addNode (h : g.Coherent) {kind : MethodKind} : (g.addNode m kind).2.Coherent := by
  refine { h.touch (m := m) with methods := (h.touch (m := m)).methods.trans ?_ }
  refine Array.ext_getElem? fun k => ?_
  simp only [CallGraph.addNode, Array.getElem?_map, Array.getElem?_modify]
  split
  · rw [Option.map_map]
    congr 1
    funext n
    dsimp only [Function.comp]
    split <;> rfl
  · rfl

/-- A method has a node with a kind. -/
def Classified (g : CallGraph) (m : MethodId) : Prop :=
  ∃ (i : Nat) (n : CallNode), g.nodeOf[m]? = some i ∧ g.nodes[i]? = some n ∧ n.kind ≠ .blank

theorem Classified.mono (h : g.Classified m) (hg : g.Grows scene g') : g'.Classified m := by
  obtain ⟨i, n, hi, hn, hk⟩ := h
  exact ⟨i, n, hg.nodeOf m i hi, hg.classified i n hn hk, hk⟩

theorem Coherent.classified_addNode (h : g.Coherent) {kind : MethodKind} (hk : kind ≠ .blank) :
    (g.addNode m kind).2.Classified m := by
  obtain ⟨n, hn, -⟩ := Option.map_eq_some_iff.1 (h.touch.nodeOf_iff.1 (nodeOf_touch (m := m)))
  refine ⟨_, if n.kind = .blank then { n with kind } else n, nodeOf_touch, ?_, ?_⟩
  · simp only [CallGraph.addNode, Array.getElem?_modify, if_true, hn, Option.map_some]
  · split
    · exact hk
    · assumption

/-- A method that has a kind keeps it, and nothing changes. -/
theorem Classified.addNode (h : g.Classified m) {kind : MethodKind} : (g.addNode m kind).2 = g := by
  obtain ⟨i, n, hi, hn, hk⟩ := h
  simp only [CallGraph.addNode, touch, hi]
  congr 1
  refine Array.ext_getElem? fun j => ?_
  rw [Array.getElem?_modify]
  split
  · next heq =>
    subst heq
    simp [hn, hk]
  · rfl

theorem edges_addNode {kind : MethodKind} : (g.addNode m kind).2.edges = g.edges := edges_touch

end Touch

section AddEdge

variable {type : CallType}

/-- The edges after a call was added. -/
theorem addEdge_cases (scene : Scene) (g : CallGraph) (i : SiteId) (caller callee : MethodId)
    (type : CallType) : ∃ t : CallGraph, (g.Coherent → t.Coherent) ∧ g.Grows scene t ∧
    t.edges = g.edges ∧ ∃ a b, t.nodeOf[caller]? = some a ∧ t.nodeOf[callee]? = some b ∧
      (t.hasEdge i callee = true ∧ (g.addEdge i caller callee type).2 = t ∨
        t.hasEdge i callee = false ∧ (g.addEdge i caller callee type).2 = { t with
          edges := t.edges.push ⟨a, b, i, type⟩
          siteEdges := t.siteEdges.insert i ((t.siteEdges[i]?).getD [] ++ [t.edges.size]) }) := by
  refine ⟨((g.touch caller).2.touch callee).2, fun h => h.touch.touch,
    touch_grows.trans touch_grows, edges_touch.trans edges_touch, (g.touch caller).1,
    ((g.touch caller).2.touch callee).1, ?_, nodeOf_touch, ?_⟩
  · have hg : (g.touch caller).2.Grows {} ((g.touch caller).2.touch callee).2 := touch_grows
    exact hg.nodeOf _ _ nodeOf_touch
  · unfold addEdge
    dsimp only
    split
    · next h => exact .inl ⟨h, rfl⟩
    · next h => exact .inr ⟨by simpa using h, rfl⟩

theorem Coherent.addEdge (h : g.Coherent) : (g.addEdge i caller callee type).2.Coherent := by
  obtain ⟨t, ht, -, -, a, b, ha, hb, ⟨-, heq⟩ | ⟨hnew, heq⟩⟩ :=
    addEdge_cases {} g i caller callee type
  · exact heq ▸ ht h
  replace h := ht h
  have hother : ∀ e ∈ t.edges, e.site = i → e.callee ≠ b := by
    rintro e he rfl rfl
    obtain ⟨m, -, hm, -⟩ := h.ends e he
    rw [h.hasEdge_iff.2 ⟨m, e, he, rfl, hm, hb⟩] at hnew
    cases hnew
  rw [heq]
  refine { h with
    ends := Array.forall_mem_push.2 ⟨⟨caller, callee, ha, hb⟩, h.ends⟩
    sited := fun j k => ?_
    distinct := fun j => ?_
    once := fun k l e e' he he' => ?_ }
  · simp only [getElem?_insert, Array.getElem?_push]
    by_cases hi : i = j
    · subst hi
      by_cases hk : k = t.edges.size <;> simp [hk, h.sited]
    · by_cases hk : k = t.edges.size <;> simp [hi, hk, h.sited]
  · rw [getElem?_insert]
    split
    · simp only [Option.getD_some, List.nodup_append, h.distinct, h.sited]
      grind
    · exact h.distinct j
  · have hold := h.once k l e e'
    simp only [Array.getElem?_push] at he he'
    grind [Array.mem_of_getElem?]

/-- Only the call that is added may be new. -/
theorem joins_addEdge (h : g.Coherent) {j : SiteId}
    (hj : (g.addEdge i caller callee type).2.Joins j m m') :
    g.Joins j m m' ∨ j = i ∧ m = caller ∧ m' = callee := by
  have hresult : (g.addEdge i caller callee type).2.Coherent := h.addEdge
  obtain ⟨t, ht, hg, hedges, a, b, ha, hb, ⟨-, heq⟩ | ⟨-, heq⟩⟩ :=
    addEdge_cases {} g i caller callee type
  · rw [heq] at hj
    exact .inl (.of_edges h (ht h) hg hedges hj)
  rw [heq] at hj
  obtain ⟨e, he, rfl, hm, hm'⟩ := hj
  rcases Array.mem_push.1 he with he | rfl
  · exact .inl (.of_mem h (ht h) hg (hedges ▸ he) hm hm')
  · exact .inr ⟨rfl, (ht h).nodeOf_inj hm ha, (ht h).nodeOf_inj hm' hb⟩

/-- The call is there from then on, made by the caller or by whoever made it before. -/
theorem addEdge_joins (h : g.Coherent) (i : SiteId) (caller callee : MethodId) (type : CallType) :
    ∃ m, (g.addEdge i caller callee type).2.Joins i m callee ∧
      (m = caller ∨ g.Joins i m callee) := by
  obtain ⟨t, ht, hg, hedges, a, b, ha, hb, ⟨hold, heq⟩ | ⟨-, heq⟩⟩ :=
    addEdge_cases {} g i caller callee type
  · rw [heq]
    obtain ⟨m, hjoins⟩ := (ht h).hasEdge_iff.1 hold
    exact ⟨m, hjoins, .inr (.of_edges h (ht h) hg hedges hjoins)⟩
  · rw [heq]
    exact ⟨caller, ⟨_, Array.mem_push_self, rfl, ha, hb⟩, .inl rfl⟩

end AddEdge

end PointsTo.CallGraph
