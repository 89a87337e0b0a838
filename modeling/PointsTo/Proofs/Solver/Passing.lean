import PointsTo.Solver
import PointsTo.Proofs.Flow.Growing
import PointsTo.Proofs.Sets

/-! What each of the solver's steps passes on, and that it passes on nothing else. -/
namespace PointsTo

/-- What holds a set of objects: a part of an object, whatever its node is, or another node. -/
inductive Holder where
  | node (n : NodeId)
  | part (o : NodeId) (key : FieldKey)
deriving DecidableEq

/-- Which objects each holder has. -/
abbrev Family := Holder → NodeId → Prop

namespace FlowGraph

def holder (g : FlowGraph) (n : NodeId) : Holder :=
  match (g.nodes[n.index]?).map Node.location with
  | some (.field o key) => .part o key
  | _ => .node n

variable {g g' : FlowGraph} {s : Scene}

theorem holder_eq_of_location {n : NodeId} {a a' : Node} (ha : g.At n a) (ha' : g'.At n a')
    (hl : a'.location = a.location) : g'.holder n = g.holder n := by
  unfold holder
  rw [show g.nodes[n.index]? = some a from ha, show g'.nodes[n.index]? = some a' from ha']
  simp [hl]

theorem Consistent.holder_of_isField (h : g.Consistent s) {x o : NodeId} {key : FieldKey}
    (hx : g.IsField x o key) : g.holder x = .part o key := by
  obtain ⟨a, ha, hl⟩ := h.isField_iff.1 hx
  unfold holder
  rw [show g.nodes[x.index]? = some a from ha]
  simp [hl]

/-- `g'` is `g` with more copy edges and with nodes for more parts of objects. -/
structure Enlarges (s : Scene) (g g' : FlowGraph) : Prop where
  consistent : g'.Consistent s
  keeps : ∀ n a, g.At n a → ∃ a', g'.At n a' ∧ a.Keeps a' ∧ a'.pointer? = a.pointer?
  fresh : g.OnlyFields g'
  edge? : ∀ i e, g.edge? i = some e → g'.edge? i = some e
  newEdges : ∀ a b k, g'.Edge a b k → g.Edge a b k ∨ k = .copy
  indexed : g.Indexed → g'.Indexed
  addressEdges : g'.addressEdges = g.addressEdges

theorem Enlarges.refl (h : g.Consistent s) : g.Enlarges s g where
  consistent := h
  keeps _ a ha := ⟨a, ha, .refl a, rfl⟩
  fresh _ a ha := .inl ⟨a, ha⟩
  edge? _ _ h := h
  newEdges _ _ _ h := .inl h
  indexed := id
  addressEdges := rfl

theorem Enlarges.trans {g₁ g₂ g₃ : FlowGraph} (h : g₁.Enlarges s g₂) (h' : g₂.Enlarges s g₃) :
    g₁.Enlarges s g₃ where
  consistent := h'.consistent
  keeps n a ha := by
    obtain ⟨b, hb, hab, hp⟩ := h.keeps n a ha
    obtain ⟨c, hc, hbc, hp'⟩ := h'.keeps n b hb
    exact ⟨c, hc, hab.trans hbc, hp'.trans hp⟩
  fresh n c hc := by
    rcases h'.fresh n c hc with ⟨b, hb⟩ | ⟨hk, hl, m, b, hb, hcontext⟩
    · refine (h.fresh n b hb).imp_right fun ⟨hk, ⟨o, key, hl⟩, m, a, ha, hcontext⟩ => ?_
      obtain ⟨c', hc', hkeep, -⟩ := h'.keeps n b hb
      cases Option.some.inj (hc'.symm.trans hc)
      refine ⟨?_, ⟨o, key, hkeep.location.trans hl⟩, m, a, ha, hcontext.trans hkeep.context.symm⟩
      have hshape := hkeep.shape
      rw [hk] at hshape
      cases hc : c.kind <;> simp_all [NodeKind.shape]
    · refine .inr ⟨hk, hl, ?_⟩
      rcases h.fresh m b hb with ⟨a, ha⟩ | ⟨-, -, m', a, ha, hcontext'⟩
      · obtain ⟨b', hb', hkeep, -⟩ := h.keeps m a ha
        cases Option.some.inj (hb'.symm.trans hb)
        exact ⟨m, a, ha, hkeep.context.symm.trans hcontext⟩
      · exact ⟨m', a, ha, hcontext'.trans hcontext⟩
  edge? i e he := h'.edge? i e (h.edge? i e he)
  indexed := h'.indexed ∘ h.indexed
  newEdges a b k he := by
    rcases h'.newEdges a b k he with he | hk
    · exact h.newEdges a b k he
    · exact .inr hk
  addressEdges := h'.addressEdges.trans h.addressEdges

/-- New nodes for parts of objects enlarge the graph. -/
theorem Grows.enlarges (h : Grows s g g') (hnew : g.OnlyFields g') : g.Enlarges s g' where
  consistent := h.consistent
  keeps := h.keeps
  fresh := hnew
  edge? i e he := by rwa [edge?, h.edges]
  newEdges a b k he := .inl (h.edge_iff.1 he)
  indexed := h.indexed
  addressEdges := h.addressEdges

section Enlarges

variable (h : g.Enlarges s g') {b n o a : NodeId}
include h

theorem Enlarges.edge {k : EdgeKind} (he : g.Edge a b k) : g'.Edge a b k := by
  obtain ⟨e, he, ha⟩ := he
  obtain ⟨i, hi⟩ := Array.mem_iff_getElem?.1 he
  exact ⟨e, Array.mem_iff_getElem?.2 ⟨i, h.edge? ⟨i⟩ e hi⟩, ha⟩

theorem Enlarges.edge_iff {k : EdgeKind} (hk : k ≠ .copy) : g'.Edge a b k ↔ g.Edge a b k :=
  ⟨fun he => (h.newEdges a b k he).resolve_right hk, h.edge⟩

theorem Enlarges.lt_size (hn : n.index < g.nodes.size) : n.index < g'.nodes.size := by
  obtain ⟨a', ha', -⟩ := h.keeps n _ (Array.getElem?_eq_getElem hn)
  exact ha'.lt_size

theorem Enlarges.size_le : g.nodes.size ≤ g'.nodes.size :=
  Nat.le_of_not_lt fun hlt => Nat.lt_irrefl _ (h.lt_size (n := ⟨g'.nodes.size⟩) hlt)

theorem Enlarges.holder (hn : n.index < g.nodes.size) : g'.holder n = g.holder n := by
  have ha : g.At n _ := Array.getElem?_eq_getElem hn
  obtain ⟨a', ha', hkeep, -⟩ := h.keeps n _ ha
  exact holder_eq_of_location ha ha' hkeep.location

theorem Enlarges.isObject_iff : g'.IsObject o ↔ g.IsObject o := by
  constructor
  · rintro ⟨a', ha', hobj⟩
    rcases h.fresh o a' ha' with ⟨a, ha⟩ | ⟨hk, -⟩
    · obtain ⟨b, hb, hkeep, -⟩ := h.keeps o a ha
      cases Option.some.inj (hb.symm.trans ha')
      exact ⟨a, ha, hkeep.isObject.symm.trans hobj⟩
    · simp [Node.isObject, hk] at hobj
  · rintro ⟨a, ha, hobj⟩
    obtain ⟨b, hb, hkeep, -⟩ := h.keeps o a ha
    exact ⟨b, hb, hkeep.isObject.trans hobj⟩

theorem Enlarges.isFieldRef_iff {r : NodeId} {key : FieldKey} :
    g'.IsFieldRef r b key ↔ g.IsFieldRef r b key := by
  constructor
  · rintro ⟨a', ha', hk⟩
    rcases h.fresh r a' ha' with ⟨a, ha⟩ | ⟨hk', -⟩
    · obtain ⟨c, hc, hkeep, -⟩ := h.keeps r a ha
      cases Option.some.inj (hc.symm.trans ha')
      rw [← Node.fieldRef?_eq_some, hkeep.fieldRef?, Node.fieldRef?_eq_some] at hk
      exact ⟨a, ha, hk⟩
    · simp [hk] at hk'
  · rintro ⟨a, ha, hk⟩
    obtain ⟨c, hc, hkeep, -⟩ := h.keeps r a ha
    rw [← Node.fieldRef?_eq_some, ← hkeep.fieldRef?, Node.fieldRef?_eq_some] at hk
    exact ⟨c, hc, hk⟩

theorem Enlarges.isField {x : NodeId} {key : FieldKey} (hx : g.IsField x o key) :
    g'.IsField x o key := by
  obtain ⟨a, ha, hk⟩ := hx
  obtain ⟨a', ha', hkeep, -⟩ := h.keeps o a ha
  exact ⟨a', ha', hkeep.fields key x hk⟩

theorem Enlarges.registers_iff {d : SiteId × ContextId} : g'.Registers n d ↔ g.Registers n d := by
  constructor
  · rintro ⟨a', ha', info, hi, hd⟩
    rcases h.fresh n a' ha' with ⟨a, ha⟩ | ⟨hk, -⟩
    · obtain ⟨b, hb, -, hp⟩ := h.keeps n a ha
      cases Option.some.inj (hb.symm.trans ha')
      exact ⟨a, ha, info, hp.symm.trans hi, hd⟩
    · simp [Node.pointer?, hk] at hi
  · rintro ⟨a, ha, info, hi, hd⟩
    obtain ⟨a', ha', -, hp⟩ := h.keeps n a ha
    exact ⟨a', ha', info, hp.trans hi, hd⟩

end Enlarges

end FlowGraph

namespace Solver

/-- Whether the solver has told that a node with calls points to an object. -/
def Reported (v : Solver) (n o : NodeId) : Prop := o ∈ (v.receivers[n]?).getD ∅

/-- The sets lie within a family that has whatever the edges of the graph demand. -/
structure Within (s : Scene) (D : Family) (v : Solver) : Prop where
  consistent : v.graph.Consistent s
  range : ∀ n o, v.points.Has n o → n.index < v.graph.nodes.size
  has : ∀ n o, v.points.Has n o → D (v.graph.holder n) o
  copies : ∀ a b o, v.graph.CopyEdge a b → D (v.graph.holder a) o → D (v.graph.holder b) o
  loads : ∀ r d b key o, v.graph.Edge r d .load → v.graph.IsFieldRef r b key →
    v.graph.IsObject o → D (v.graph.holder b) o → ∀ o', D (.part o key) o' → D (v.graph.holder d) o'
  stores : ∀ a r b key o, v.graph.Edge a r .write → v.graph.IsFieldRef r b key →
    v.graph.IsObject o → D (v.graph.holder b) o → ∀ o', D (v.graph.holder a) o' → D (.part o key) o'

/-- `v'` is `v` after some work: sets and copy edges are added, and parts of objects get nodes. -/
structure Extends (s : Scene) (D : Family) (v v' : Solver) : Prop where
  graph : v.graph.Enlarges s v'.graph
  has : ∀ n o, v.points.Has n o → v'.points.Has n o
  grew : v'.changed = true ↔ v.changed = true ∨ ∃ n o, v'.points.Has n o ∧ ¬ v.points.Has n o
  within : v'.Within s D
  cursor : v'.cursor = v.cursor
  reported : ∀ n o, v.Reported n o → v'.Reported n o
  reports : ∀ n o, v'.Reported n o → v.Reported n o ∨ v'.points.Has n o

/-- Work that does not take anything as passed on: what is still to be passed on is queued, and a
new edge has passed on what it should. -/
structure Advances (s : Scene) (D : Family) (v v' : Solver) : Prop extends Extends s D v v' where
  passed : ∀ n o, v'.points.Passed n o ↔ v.points.Passed n o
  owes : ∀ n o, v'.points.Owes n o → v.points.Owes n o ∨ n ∈ v'.queue.toList
  queue : ∀ n ∈ v.queue.toList, n ∈ v'.queue.toList
  copies : ∀ a b, v'.graph.CopyEdge a b →
    v.graph.CopyEdge a b ∨ ∀ o, v'.points.Passed a o → v'.points.Has b o

variable {s : Scene} {D : Family} {v v' v'' : Solver} {n r a b o : NodeId} {P : NodeId → Prop}
  {objects : List NodeId} {g : FlowGraph} {key : FieldKey}

theorem Extends.refl (h : v.Within s D) : Extends s D v v where
  graph := .refl h.consistent
  has _ _ h := h
  grew := by simp
  within := h
  cursor := rfl
  reported _ _ h := h
  reports _ _ h := .inl h

theorem Extends.trans (h : Extends s D v v') (h' : Extends s D v' v'') : Extends s D v v'' where
  graph := h.graph.trans h'.graph
  has n o ho := h'.has n o (h.has n o ho)
  grew := by
    rw [h'.grew, h.grew]
    constructor
    · rintro ((hc | ⟨n, o, ho, hno⟩) | ⟨n, o, ho, hno⟩)
      · exact .inl hc
      · exact .inr ⟨n, o, h'.has n o ho, hno⟩
      · exact .inr ⟨n, o, ho, fun hv => hno (h.has n o hv)⟩
    · rintro (hc | ⟨n, o, ho, hno⟩)
      · exact .inl (.inl hc)
      · by_cases hm : v'.points.Has n o
        · exact .inl (.inr ⟨n, o, hm, hno⟩)
        · exact .inr ⟨n, o, ho, hm⟩
  within := h'.within
  cursor := h'.cursor.trans h.cursor
  reported n o ho := h'.reported n o (h.reported n o ho)
  reports n o ho := by
    rcases h'.reports n o ho with ho | ho
    · exact (h.reports n o ho).imp_right (h'.has n o)
    · exact .inr ho

theorem Advances.refl (h : v.Within s D) : Advances s D v v where
  toExtends := .refl h
  passed _ _ := .rfl
  owes _ _ h := .inl h
  queue _ h := h
  copies _ _ h := .inl h

theorem Advances.trans (h : Advances s D v v') (h' : Advances s D v' v'') : Advances s D v v'' where
  toExtends := h.toExtends.trans h'.toExtends
  passed n o := (h'.passed n o).trans (h.passed n o)
  owes n o ho := by
    rcases h'.owes n o ho with ho | hq
    · exact (h.owes n o ho).imp_right (h'.queue n)
    · exact .inr hq
  queue n hn := h'.queue n (h.queue n hn)
  copies a b hc := by
    rcases h'.copies a b hc with hc | hp
    · refine (h.copies a b hc).imp_right fun hp o ho => ?_
      exact h'.has b o (hp o ((h'.passed a o).1 ho))
    · exact .inr hp

/-- The solver with objects added to the set of a node, which is queued if its set grew. -/
private def gained (v : Solver) (n : NodeId) (r : Bool × DiffTable) : Solver :=
  if r.1 then { v with points := r.2, changed := true, queue := v.queue.push n }
  else { v with points := r.2 }

private theorem advances_gained (h : v.Within s D) {r : Bool × DiffTable}
    (hg : v.points.Gains n P r) (hn : n.index < v.graph.nodes.size)
    (hP : ∀ o, P o → D (v.graph.holder n) o) : Advances s D v (v.gained n r) := by
  have hpoints : (v.gained n r).points = r.2 := by
    unfold gained
    split <;> rfl
  have hgraph : (v.gained n r).graph = v.graph := by
    unfold gained
    split <;> rfl
  have hreceivers : (v.gained n r).receivers = v.receivers := by
    unfold gained
    split <;> rfl
  have hqueue : ∀ m ∈ v.queue.toList, m ∈ (v.gained n r).queue.toList := by
    intro m hm
    unfold gained
    split
    · simp [hm]
    · exact hm
  have hhas : ∀ m o, (v.gained n r).points.Has m o ↔ v.points.Has m o ∨ (m = n ∧ P o) := by
    rw [hpoints]
    exact hg.has
  refine { graph := by rw [hgraph]; exact .refl h.consistent
           has := fun m o ho => (hhas m o).2 (.inl ho), grew := ?_, within := ?_, cursor := ?_
           reported := ?_, reports := ?_, passed := ?_, owes := ?_, queue := hqueue, copies := ?_ }
  · have hnew : (∃ m o, (v.gained n r).points.Has m o ∧ ¬ v.points.Has m o) ↔ r.1 = true := by
      rw [hg.grew]
      constructor
      · rintro ⟨m, o, ho, hno⟩
        obtain ⟨rfl, hPo⟩ := ((hhas m o).1 ho).resolve_left hno
        exact ⟨o, hPo, hno⟩
      · rintro ⟨o, hP, hno⟩
        exact ⟨n, o, (hhas n o).2 (.inr ⟨rfl, hP⟩), hno⟩
    rw [hnew]
    unfold gained
    split
    · next hr => simp [hr]
    · next hr => simp [hr]
  · constructor
    · rw [hgraph]
      exact h.consistent
    · intro m o ho
      rw [hgraph]
      rcases (hhas m o).1 ho with ho | ⟨rfl, -⟩
      · exact h.range m o ho
      · exact hn
    · intro m o ho
      rw [hgraph]
      rcases (hhas m o).1 ho with ho | ⟨rfl, hPo⟩
      · exact h.has m o ho
      · exact hP o hPo
    · rw [hgraph]
      exact h.copies
    · rw [hgraph]
      exact h.loads
    · rw [hgraph]
      exact h.stores
  · unfold gained
    split <;> rfl
  · intro m o ho
    rwa [Reported, hreceivers]
  · intro m o ho
    rw [Reported, hreceivers] at ho
    exact .inl ho
  · rw [hpoints]
    exact hg.passed
  · intro m o ho
    rw [hpoints, hg.owes] at ho
    rcases ho with ho | ⟨rfl, hP, hno⟩
    · exact .inl ho
    · cases hr : r.1 with
      | true =>
        refine .inr ?_
        simp [gained, hr]
      | false =>
        -- nothing is new, so what is not passed on was owed before
        have : v.points.Has m o := by
          refine Decidable.by_contra fun hno' => ?_
          rw [hg.grew.2 ⟨o, hP, hno'⟩] at hr
          cases hr
        exact .inl ((DiffTable.has_iff.1 this).resolve_left hno)
  · rw [hgraph]
    exact fun _ _ hc => .inl hc

theorem ensures_grow (h : v.Within s D) {f : DiffTable → Bool × DiffTable}
    (hg : v.points.Gains n P (f v.points)) (hn : n.index < v.graph.nodes.size)
    (hP : ∀ o, P o → D (v.graph.holder n) o) : Ensures (Solving.grow n f) v fun _ v' =>
      Advances s D v v' ∧ v'.graph = v.graph ∧ ∀ o, P o → v'.points.Has n o := by
  refine ensures_modify ?_
  have hhas : ∀ o, P o → (f v.points).2.Has n o := fun o ho => (hg.has n o).2 (.inr ⟨rfl, ho⟩)
  refine ⟨advances_gained h hg hn hP, ?_, ?_⟩
  · dsimp only
    split <;> rfl
  · dsimp only
    split <;> exact hhas

theorem ensures_join (h : v.Within s D) {objects : ObjectSet} (hn : n.index < v.graph.nodes.size)
    (hP : ∀ o, objects.contains o = true → D (v.graph.holder n) o) :
    Ensures (Solving.join n objects) v fun _ v' => Advances s D v v' ∧ v'.graph = v.graph ∧
      ∀ o, objects.contains o = true → v'.points.Has n o :=
  ensures_grow h (DiffTable.join_gains _ _ _) hn hP

theorem ensures_onGraph {α : Type} {m : Growing α} {Q : α → FlowGraph → Prop}
    (h : Ensures m v.graph Q) : Ensures (Solving.onGraph m) v fun a v' =>
      ∃ g, Q a g ∧ v' = { v with graph := g } := by
  constructor
  · intro a v' hm
    unfold Solving.onGraph at hm
    dsimp only at hm
    split at hm
    · next g hg =>
      cases hm
      exact ⟨g, h.1 hg, rfl⟩
    · cases hm
  · intro e v' hm he
    unfold Solving.onGraph at hm
    dsimp only at hm
    split at hm
    · cases hm
    · cases hm
      cases he

theorem ensures_onGraph_node_bind {β : Type} {f : Node → Solving β} {R : β → Solver → Prop}
    (h : ∀ a, v.graph.At n a → Ensures (f a) v R) :
    Ensures (Solving.onGraph (Growing.node n) >>= f) v R := by
  refine ensures_bind (ensures_onGraph (Q := fun a g => v.graph.At n a ∧ g = v.graph) ?_) ?_
  · rw [← bind_pure (Growing.node n)]
    exact FlowGraph.ensures_node_bind fun a ha => ensures_pure ⟨ha, rfl⟩
  · rintro a _ ⟨g, ⟨ha, rfl⟩, rfl⟩
    exact h a ha

/-- A family that has what the edges demand still does in a larger graph if it has what the copy
edges of that graph demand. -/
theorem within_enlarges (h : v.Within s D) (hg : v.graph.Enlarges s g)
    (hcopy : ∀ a b, g.CopyEdge a b →
      (a.index < v.graph.nodes.size ∧ b.index < v.graph.nodes.size) ∧
      ∀ o, D (v.graph.holder a) o → D (v.graph.holder b) o) :
    ({ v with graph := g } : Solver).Within s D where
  consistent := hg.consistent
  range n o ho := hg.lt_size (h.range n o ho)
  has n o ho := by
    rw [hg.holder (h.range n o ho)]
    exact h.has n o ho
  copies a b o hc ho := by
    obtain ⟨⟨ha, hb⟩, hflow⟩ := hcopy a b hc
    rw [hg.holder ha] at ho
    rw [hg.holder hb]
    exact hflow o ho
  loads r d b key o he hr ho hb o' ho' := by
    have he := (hg.edge_iff (by decide)).1 he
    have hr := hg.isFieldRef_iff.1 hr
    rw [hg.holder (h.consistent.bases r b key hr)] at hb
    rw [hg.holder (h.consistent.tables.lt_size he).2]
    exact h.loads r d b key o he hr (hg.isObject_iff.1 ho) hb o' ho'
  stores a r b key o he hr ho hb o' ho' := by
    have he := (hg.edge_iff (by decide)).1 he
    have hr := hg.isFieldRef_iff.1 hr
    rw [hg.holder (h.consistent.bases r b key hr)] at hb
    rw [hg.holder (h.consistent.tables.lt_size he).1] at ho'
    exact h.stores a r b key o he hr (hg.isObject_iff.1 ho) hb o' ho'

/-- New nodes for parts of objects, which have no objects yet. -/
theorem advances_grows (h : v.Within s D) (hg : FlowGraph.Grows s v.graph g)
    (hnew : v.graph.OnlyFields g) : Advances s D v { v with graph := g } := by
  have henl := hg.enlarges hnew
  refine { graph := henl, has := fun _ _ h => h, grew := by simp, within := ?_
           cursor := rfl, reported := fun _ _ h => h, reports := fun _ _ h => .inl h
           passed := fun _ _ => .rfl, owes := fun _ _ h => .inl h, queue := fun _ h => h
           copies := fun a b hc => .inl (hg.copyEdge_iff.1 hc) }
  refine within_enlarges h henl fun a b hc => ?_
  have hc := hg.copyEdge_iff.1 hc
  exact ⟨h.consistent.tables.lt_size_of_copyEdge hc, fun o ho => h.copies a b o hc ho⟩

theorem enlarges_withEdge (hg : g.Consistent s) (ha : a.index < g.nodes.size)
    (hb : b.index < g.nodes.size) : g.Enlarges s (g.withEdge a b .copy none) where
  consistent := hg.withEdge ha hb
  keeps _ x hx := ⟨x, hx, .refl x, rfl⟩
  fresh _ x hx := .inl ⟨x, hx⟩
  edge? _ _ he := FlowGraph.edge?_withEdge.2 (.inl he)
  newEdges _ _ _ he := (FlowGraph.edge_withEdge.1 he).imp_right fun h => h.2.2
  indexed := id
  addressEdges := rfl

/-- A copy edge between two nodes: if it is new, it passes on the whole set at once. -/
theorem ensures_link (h : v.Within s D)
    (hflow : ∀ o, D (v.graph.holder a) o → D (v.graph.holder b) o) : Ensures (do
      if (← Solving.onGraph (Growing.addEdge a b .copy none)).isSome then
        Solving.join b ((← get).points.get a)) v fun _ v' =>
      Advances s D v v' ∧ v'.graph.Edge a b .copy := by
  refine ensures_bind (ensures_onGraph FlowGraph.ensures_addEdge) ?_
  rintro r? _ ⟨g, (⟨rfl, hold, rfl⟩ | ⟨rfl, -, ha, hb, rfl⟩), rfl⟩
  · exact ensures_pure ⟨.refl h, h.consistent.tables.hasEdge_iff.1 hold⟩
  · refine ensures_get_bind ?_
    have henl := enlarges_withEdge h.consistent ha hb
    have hcopy : ∀ x y, (v.graph.withEdge a b .copy none).CopyEdge x y →
        v.graph.CopyEdge x y ∨ (x = a ∧ y = b) := by
      rintro x y ⟨k, hk, he⟩
      rcases FlowGraph.edge_withEdge.1 he with he | ⟨rfl, rfl, -⟩
      · exact .inl ⟨k, hk, he⟩
      · exact .inr ⟨rfl, rfl⟩
    have hwithin : ({ v with graph := v.graph.withEdge a b .copy none } : Solver).Within s D := by
      refine within_enlarges h henl fun x y hc => ?_
      rcases hcopy x y hc with hc | ⟨rfl, rfl⟩
      · exact ⟨h.consistent.tables.lt_size_of_copyEdge hc, fun o ho => h.copies x y o hc ho⟩
      · exact ⟨⟨ha, hb⟩, hflow⟩
    have hnew : (v.graph.withEdge a b .copy none).Edge a b .copy :=
      FlowGraph.edge_withEdge.2 (.inr ⟨rfl, rfl, rfl⟩)
    have hext : Extends s D v { v with graph := v.graph.withEdge a b .copy none } :=
      { graph := henl, has := fun _ _ h => h, grew := by simp, within := hwithin, cursor := rfl
        reported := fun _ _ h => h, reports := fun _ _ h => .inl h }
    refine (ensures_join hwithin hb fun o ho => ?_).mono ?_
    · exact hwithin.copies a b o ⟨.copy, rfl, hnew⟩ (hwithin.has a o ho)
    · rintro _ v' ⟨hadv, hgraph, hhas⟩
      refine ⟨{ hext.trans hadv.toExtends with
        passed := hadv.passed, owes := hadv.owes, queue := hadv.queue
        copies := fun x y hc => ?_ }, hgraph ▸ hnew⟩
      rw [hgraph] at hc
      refine (hcopy x y hc).imp_right ?_
      rintro ⟨rfl, rfl⟩ o ho
      exact hhas o (DiffTable.has_iff.2 (.inl ((hadv.passed x o).1 ho)))

/-- The field of an object is connected with what is loaded from it and stored in it. -/
theorem ensures_connect (h : v.Within s D) {x : NodeId} {loads stores : List NodeId}
    (hx : x.index < v.graph.nodes.size)
    (hrange : ∀ d, d ∈ loads ∨ d ∈ stores → d.index < v.graph.nodes.size)
    (hloads : ∀ d ∈ loads, ∀ o, D (v.graph.holder x) o → D (v.graph.holder d) o)
    (hstores : ∀ a ∈ stores, ∀ o, D (v.graph.holder a) o → D (v.graph.holder x) o) :
    Ensures (Solving.connect x loads stores) v fun _ v' => Advances s D v v' ∧
      (∀ d ∈ loads, v'.graph.Edge x d .copy) ∧ ∀ a ∈ stores, v'.graph.Edge a x .copy := by
  refine ensures_bind (ensures_forM_each (I := fun v' => Advances s D v v')
    (P := fun d v' => v'.graph.Edge x d .copy) loads (.refl h) fun d hd v₁ h₁ => ?_) ?_
  · refine (ensures_link h₁.within fun o ho => ?_).mono fun _ v₂ h₂ => ?_
    · rw [h₁.graph.holder hx] at ho
      rw [h₁.graph.holder (hrange d (.inl hd))]
      exact hloads d hd o ho
    · exact ⟨h₁.trans h₂.1, h₂.2, fun y => h₂.1.graph.edge⟩
  · rintro _ v₁ ⟨h₁, hl, -⟩
    refine (ensures_forM_each (I := fun v' => Advances s D v v' ∧
        ∀ d ∈ loads, v'.graph.Edge x d .copy)
      (P := fun a v' => v'.graph.Edge a x .copy) stores ⟨h₁, hl⟩ fun a ha v₂ h₂ => ?_).mono ?_
    · refine (ensures_link h₂.1.within fun o ho => ?_).mono fun _ v₃ h₃ => ?_
      · rw [h₂.1.graph.holder (hrange a (.inr ha))] at ho
        rw [h₂.1.graph.holder hx]
        exact hstores a ha o ho
      · exact ⟨⟨h₂.1.trans h₃.1, fun d hd => h₃.1.graph.edge (h₂.2 d hd)⟩, h₃.2,
          fun y => h₃.1.graph.edge⟩
    · rintro _ v₂ ⟨⟨h₂, hl⟩, hs, -⟩
      exact ⟨h₂, hl, hs⟩

/-- The loads and stores of `g` through the field reference `r` reach the part of `o`. -/
def Served (g : FlowGraph) (r : NodeId) (key : FieldKey) (o : NodeId) (g' : FlowGraph) : Prop :=
  (∀ d, g.Edge r d .load → ∃ x, g'.IsField x o key ∧ g'.Edge x d .copy) ∧
  ∀ a, g.Edge a r .write → ∃ x, g'.IsField x o key ∧ g'.Edge a x .copy

theorem Served.mono {g₁ g₂ : FlowGraph} (h : Served g r key o g₁) (hg : g₁.Enlarges s g₂) :
    Served g r key o g₂ := by
  constructor
  · intro d hd
    obtain ⟨x, hx, he⟩ := h.1 d hd
    exact ⟨x, hg.isField hx, hg.edge he⟩
  · intro a ha
    obtain ⟨x, hx, he⟩ := h.2 a ha
    exact ⟨x, hg.isField hx, hg.edge he⟩

/-- One object of the base of a field reference. -/
private theorem ensures_access_one (h : v.Within s D) (hg : g.Consistent s)
    (henl : g.Enlarges s v.graph) (hr : g.IsFieldRef r n key) (ho : v.points.Has n o) : Ensures (do
      if (← Solving.onGraph (Growing.node o)).isObject then
        if let some field ← Solving.onGraph (Growing.fieldOf r o) then
          Solving.connect field (g.successors r .load) (g.predecessors r .write)) v fun _ v' =>
      Advances s D v v' ∧ (g.IsObject o → Served g r key o v'.graph) := by
  refine ensures_onGraph_node_bind fun a ha => ?_
  split
  · next hobj =>
    refine ensures_bind (ensures_onGraph (FlowGraph.ensures_fieldOf h.consistent)) ?_
    have hr' := henl.isFieldRef_iff.2 hr
    rintro x? _ ⟨g₁, ⟨hgrow, hnew, hfield⟩, rfl⟩
    obtain ⟨x, rfl, hx⟩ : ∃ x, x? = some x ∧ g₁.IsField x o key := by
      rcases hfield with ⟨b, key', x, ⟨c, hc, hk⟩, rfl, hx⟩ | ⟨-, hno⟩
      · obtain ⟨c', hc', hk'⟩ := hr'
        cases Option.some.inj (hc.symm.trans hc')
        cases hk.symm.trans hk'
        exact ⟨x, rfl, hx⟩
      · exact absurd hr' (hno n key)
    have hadv : Advances s D v { v with graph := g₁ } := advances_grows h hgrow hnew
    have henl₁ := henl.trans hadv.graph
    have hload : ∀ d, d ∈ g.successors r .load ↔ g.Edge r d .load :=
      fun d => hg.tables.mem_successors
    have hstore : ∀ d, d ∈ g.predecessors r .write ↔ g.Edge d r .write :=
      fun d => hg.tables.mem_predecessors
    have hholder : g₁.holder x = .part o key := hgrow.consistent.holder_of_isField hx
    have hr₁ := henl₁.isFieldRef_iff.2 hr
    have ho₁ : D (g₁.holder n) o := hadv.within.has n o ho
    have hobj₁ : g₁.IsObject o := hadv.graph.isObject_iff.2 ⟨a, ha, hobj⟩
    obtain ⟨c, hc, -⟩ := hgrow.consistent.isField_iff.1 hx
    refine (ensures_connect hadv.within hc.lt_size ?_ ?_ ?_).mono ?_
    · rintro d (hd | hd)
      · exact henl₁.lt_size (hg.tables.lt_size ((hload d).1 hd)).2
      · exact henl₁.lt_size (hg.tables.lt_size ((hstore d).1 hd)).1
    · intro d hd o' ho'
      rw [hholder] at ho'
      exact hadv.within.loads r d n key o (henl₁.edge ((hload d).1 hd)) hr₁ hobj₁ ho₁ o' ho'
    · intro d hd o' ho'
      rw [hholder]
      exact hadv.within.stores d r n key o (henl₁.edge ((hstore d).1 hd)) hr₁ hobj₁ ho₁ o' ho'
    · rintro _ v' ⟨h', hl, hs⟩
      refine ⟨hadv.trans h', fun _ => ⟨fun d hd => ?_, fun d hd => ?_⟩⟩
      · exact ⟨x, h'.graph.isField hx, hl d ((hload d).2 hd)⟩
      · exact ⟨x, h'.graph.isField hx, hs d ((hstore d).2 hd)⟩
  · next hobj =>
    refine ensures_pure ⟨.refl h, fun ho => ?_⟩
    obtain ⟨b, hb, hbo⟩ := henl.isObject_iff.2 ho
    cases Option.some.inj (ha.symm.trans hb)
    exact absurd hbo hobj

/-- The loads and stores through one field reference are served for objects of its base. -/
theorem ensures_access (h : v.Within s D) (hr : v.graph.IsFieldRef r n key)
    (ho : ∀ o ∈ objects, v.points.Has n o) :
    Ensures (Solving.access objects r) v fun _ v' => Advances s D v v' ∧
      ∀ o ∈ objects, v.graph.IsObject o → Served v.graph r key o v'.graph := by
  refine ensures_get_bind ?_
  dsimp only
  split
  · next hempty =>
    rw [Bool.and_eq_true, List.isEmpty_iff, List.isEmpty_iff] at hempty
    refine ensures_pure ⟨.refl h, fun o _ _ => ⟨fun d hd => ?_, fun a ha => ?_⟩⟩
    · rw [← h.consistent.tables.mem_successors, hempty.1] at hd
      cases hd
    · rw [← h.consistent.tables.mem_predecessors, hempty.2] at ha
      cases ha
  · refine (ensures_forM_each (I := fun v' => Advances s D v v')
      (P := fun o v' => v.graph.IsObject o → Served v.graph r key o v'.graph) objects (.refl h)
      fun o hmem v₁ h₁ => ?_).mono fun _ v' h' => ⟨h'.1, h'.2.1⟩
    refine (ensures_access_one h₁.within h.consistent h₁.graph hr
      (h₁.has n o (ho o hmem))).mono fun _ v₂ h₂ => ⟨h₁.trans h₂.1, h₂.2, ?_⟩
    intro o' hs hobj
    exact (hs hobj).mono h₂.1.graph

theorem hasCalls_iff {info : PointerInfo} : info.hasCalls = true ↔
    ∃ d, d ∈ info.dynamicCalls ∨ d ∈ info.unknownCalls ∨ d ∈ info.instanceCalls := by
  simp only [PointerInfo.hasCalls, Bool.or_eq_true, Bool.not_eq_true',
    List.isEmpty_eq_false_iff_exists_mem, exists_or, or_assoc]

/-- The solver with objects of a node reported. -/
private def reporting (v : Solver) (n : NodeId) (objects : List NodeId) : Solver :=
  let old := (v.receivers[n]?).getD ∅
  { v with receivers := v.receivers.insert n (objects.foldl (·.insert ·) old) }

private theorem reported_reporting {m : NodeId} :
    (v.reporting n objects).Reported m o ↔ v.Reported m o ∨ (m = n ∧ o ∈ objects) := by
  simp only [Reported, reporting, getElem?_insert]
  split
  · next hm =>
    subst hm
    simp [mem_foldl_insert]
  · next hm => simp [Ne.symm hm]

/-- The objects of a node with calls are reported. -/
theorem ensures_report (h : v.Within s D) (ho : ∀ o ∈ objects, v.points.Has n o) :
    Ensures (Solving.report n objects) v fun _ v' => Advances s D v v' ∧
      ∀ d, v.graph.Registers n d → ∀ o ∈ objects, v'.Reported n o := by
  refine ensures_onGraph_node_bind fun a ha => ?_
  dsimp only
  split
  · refine ensures_modify ?_
    refine ⟨?_, fun d _ o hmem => reported_reporting.2 (.inr ⟨rfl, hmem⟩)⟩
    refine { graph := .refl h.consistent, has := fun _ _ h => h, grew := by simp
             within := ⟨h.consistent, h.range, h.has, h.copies, h.loads, h.stores⟩, cursor := rfl
             reported := fun m o hm => reported_reporting.2 (.inl hm), reports := fun m o hm => ?_
             passed := fun _ _ => .rfl, owes := fun _ _ h => .inl h, queue := fun _ h => h
             copies := fun _ _ h => .inl h }
    rcases reported_reporting.1 hm with hm | ⟨rfl, hmem⟩
    · exact .inl hm
    · exact .inr (ho o hmem)
  · next hcalls =>
    refine ensures_pure ⟨.refl h, ?_⟩
    rintro d ⟨b, hb, info, hi, hd⟩
    cases Option.some.inj (ha.symm.trans hb)
    simp only [hi, Option.map_some, Option.getD_some] at hcalls
    exact absurd (hasCalls_iff.2 ⟨d, hd⟩) hcalls

/-- What a node has passed on of the objects `P`, as far as the edges of `g` demand. -/
structure Handed (g : FlowGraph) (n : NodeId) (P : NodeId → Prop) (v' : Solver) : Prop where
  copies : ∀ b o, g.CopyEdge n b → P o → v'.points.Has b o
  accesses : ∀ r key o, g.IsFieldRef r n key → P o → g.IsObject o → Served g r key o v'.graph
  reports : ∀ d o, g.Registers n d → P o → v'.Reported n o

/-- A node hands objects of its set to all that depend on it. -/
theorem ensures_propagate (h : v.Within s D) {objects : ObjectSet}
    (ho : ∀ o, objects.contains o = true → v.points.Has n o) :
    Ensures (Solving.propagate n objects) v fun _ v' => Advances s D v v' ∧
      Handed v.graph n (objects.contains · = true) v' := by
  refine ensures_get_bind ?_
  refine ensures_bind (ensures_forM_each
    (I := fun v' => Advances s D v v' ∧ v'.graph = v.graph)
    (P := fun b v' => ∀ o, objects.contains o = true → v'.points.Has b o)
    (v.graph.copySuccessors n) ⟨.refl h, rfl⟩ fun b hb v₁ h₁ => ?_) ?_
  · obtain ⟨h₁, hg₁⟩ := h₁
    have hedge := h.consistent.tables.mem_copySuccessors.1 hb
    have hrange := (h.consistent.tables.lt_size_of_copyEdge hedge).2
    refine (ensures_join h₁.within (h₁.graph.lt_size hrange) fun o hmem => ?_).mono ?_
    · rw [hg₁]
      exact h.copies n b o hedge (h.has n o (ho o hmem))
    · rintro _ v₂ ⟨h₂, hg₂, hhas⟩
      exact ⟨⟨h₁.trans h₂, hg₂.trans hg₁⟩, hhas, fun y hy o hmem => h₂.has y o (hy o hmem)⟩
  · rintro _ v₁ ⟨⟨h₁, hg₁⟩, hcopied, -⟩
    refine ensures_get_bind ?_
    refine ensures_onGraph_node_bind fun a ha => ?_
    have hlisted : ∀ o, o ∈ v₁.points.collection.enumerate objects ↔ objects.contains o = true :=
      fun o => Collection.mem_enumerate
    rw [hg₁] at ha
    refine ensures_bind (ensures_forM_each (I := fun v' => Advances s D v₁ v')
      (P := fun r v' => ∀ key o, v.graph.IsFieldRef r n key → objects.contains o = true →
        v.graph.IsObject o → Served v.graph r key o v'.graph)
      a.fieldRefs.toList (.refl h₁.within) fun r hr v₂ h₂ => ?_) ?_
    · obtain ⟨key', hr'⟩ := (h.consistent.fieldRefs n a r ha).1 (by simpa using hr)
      have henl := h₁.graph.trans h₂.graph
      refine (ensures_access h₂.within (henl.isFieldRef_iff.2 hr') fun o hmem => ?_).mono ?_
      · exact h₂.has n o (h₁.has n o (ho o ((hlisted o).1 hmem)))
      · rintro _ v₃ ⟨h₃, hserved⟩
        refine ⟨h₂.trans h₃, fun key o hk hmem hobj => ?_,
          fun y hy key o hk hmem hobj => (hy key o hk hmem hobj).mono h₃.graph⟩
        obtain ⟨c, hc, hkind⟩ := hr'
        obtain ⟨c', hc', hkind'⟩ := hk
        cases Option.some.inj (hc.symm.trans hc')
        cases hkind.symm.trans hkind'
        obtain ⟨hl, hs⟩ := hserved o ((hlisted o).2 hmem) (henl.isObject_iff.2 hobj)
        exact ⟨fun d hd => hl d (henl.edge hd), fun d hd => hs d (henl.edge hd)⟩
    · rintro _ v₂ ⟨h₂, hserved, -⟩
      refine (ensures_report h₂.within fun o hmem => ?_).mono ?_
      · exact h₂.has n o (h₁.has n o (ho o ((hlisted o).1 hmem)))
      · rintro _ v₃ ⟨h₃, hrep⟩
        have henl := h₁.graph.trans h₂.graph
        refine ⟨(h₁.trans h₂).trans h₃, ?_, ?_, ?_⟩
        · intro b o hc hmem
          have hb := h.consistent.tables.mem_copySuccessors.2 hc
          exact h₃.has b o (h₂.has b o (hcopied b hb o hmem))
        · intro r key o hk hmem hobj
          have hr : r ∈ a.fieldRefs := (h.consistent.fieldRefs n a r ha).2 ⟨key, hk⟩
          exact (hserved r (by simpa using hr) key o hk hmem hobj).mono h₃.graph
        · intro d o hd hmem
          exact hrep d (henl.registers_iff.2 hd) o ((hlisted o).2 hmem)

end Solver

end PointsTo
