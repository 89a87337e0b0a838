import PointsTo.Proofs.Solver.Run

/-! The sets that the solver ends with are the least ones that the graph demands. -/
namespace PointsTo

/-- The least family that has the sets to start from and whatever the edges of the graph demand:
the objects of address edges, the sets of the sources of copy edges, and the sets of the parts of
objects that are read and written through field references. -/
inductive Flows (g : FlowGraph) (t : DiffTable) (updates : List (NodeId × ObjectSet)) : Family where
  | start {n o : NodeId} : t.Has n o → Flows g t updates (g.holder n) o
  | update {n o : NodeId} {objects : ObjectSet} : (n, objects) ∈ updates →
      objects.contains o = true → Flows g t updates (g.holder n) o
  | address {o d : NodeId} : g.Edge o d .address → Flows g t updates (g.holder d) o
  | copy {a b o : NodeId} : g.CopyEdge a b → Flows g t updates (g.holder a) o →
      Flows g t updates (g.holder b) o
  | load {r d b o o' : NodeId} {key : FieldKey} : g.Edge r d .load → g.IsFieldRef r b key →
      g.IsObject o → Flows g t updates (g.holder b) o → Flows g t updates (.part o key) o' →
      Flows g t updates (g.holder d) o'
  | store {a r b o o' : NodeId} {key : FieldKey} : g.Edge a r .write → g.IsFieldRef r b key →
      g.IsObject o → Flows g t updates (g.holder b) o → Flows g t updates (g.holder a) o' →
      Flows g t updates (.part o key) o'

namespace FlowGraph

variable {s : Scene} {g : FlowGraph}

theorem eq_of_holder_eq_node {m n : NodeId} (h : g.holder n = .node m) : n = m := by
  unfold holder at h
  split at h
  · cases h
  · exact Holder.node.inj h

/-- A node is determined by what it holds the set of. -/
theorem Consistent.holder_injective (h : g.Consistent s) {m n : NodeId}
    (hmn : g.holder m = g.holder n) : m = n := by
  have hcases : ∀ x, (∃ o key, g.IsField x o key ∧ g.holder x = .part o key) ∨
      g.holder x = .node x := by
    intro x
    unfold holder
    split
    · next o key hx =>
      obtain ⟨a, ha, hl⟩ := Option.map_eq_some_iff.1 hx
      exact .inl ⟨o, key, h.isField_iff.2 ⟨a, ha, hl⟩, rfl⟩
    · exact .inr rfl
  rcases hcases m with ⟨o, key, hm, hm'⟩ | hm
  · rcases hcases n with ⟨o', key', hn, hn'⟩ | hn
    · rw [hm', hn'] at hmn
      cases hmn
      obtain ⟨a, ha, hk⟩ := hm
      obtain ⟨a', ha', hk'⟩ := hn
      cases Option.some.inj (ha.symm.trans ha')
      exact Option.some.inj (hk.symm.trans hk')
    · rw [hm', hn] at hmn
      cases hmn
  · rcases hcases n with ⟨o', key', hn, hn'⟩ | hn
    · rw [hm, hn'] at hmn
      cases hmn
    · rw [hm, hn] at hmn
      cases hmn
      rfl

end FlowGraph

namespace Solver

/-- The sets of a solver, by what holds them. -/
def Holds (v : Solver) : Family := fun h o => ∃ n, v.graph.holder n = h ∧ v.points.Has n o

variable {s : Scene} {v v' : Solver} {retrigger : List NodeId}
  {updates : List (NodeId × ObjectSet)}

/-- The sets to start from lie within the least family. -/
theorem within_flows (hg : v.graph.Consistent s) (h : Ready retrigger v) :
    v.Within s (Flows v.graph v.points updates) where
  consistent := hg
  range := h.range
  has _ _ ho := .start ho
  copies _ _ _ hc ho := .copy hc ho
  loads _ _ _ _ _ he hr hobj hb _ ho' := .load he hr hobj hb ho'
  stores _ _ _ _ _ he hr hobj hb _ ho' := .store he hr hobj hb ho'

/-- Sets that have what the edges demand hold the least family. -/
theorem Solved.holds_of_flows {D : Family} (h : Solved s D retrigger updates v v')
    (hg : v.graph.Consistent s) (hv : Ready retrigger v)
    (hupd : ∀ u ∈ updates, u.1.index < v.graph.nodes.size) {x : Holder} {o : NodeId}
    (hx : Flows v.graph v.points updates x o) : v'.Holds x o := by
  have hgraph := h.extend.graph
  have hnode : ∀ n o, n.index < v.graph.nodes.size → v'.Holds (v.graph.holder n) o →
      v'.points.Has n o := by
    rintro n o hn ⟨m, hm, ho⟩
    rw [← hgraph.holder hn] at hm
    cases h.within.consistent.holder_injective hm
    exact ho
  have hholds : ∀ n o, n.index < v.graph.nodes.size → v'.points.Has n o →
      v'.Holds (v.graph.holder n) o := fun n o hn ho => ⟨n, hgraph.holder hn, ho⟩
  have hcopy : ∀ a b o, v'.graph.CopyEdge a b → v'.points.Has a o → v'.points.Has b o :=
    fun a b o hc ho => (h.ready.copies a b o hc ho).resolve_left (by simp)
  induction hx with
  | @start n o ho => exact hholds n o (hv.range n o ho) (h.extend.has n o ho)
  | @update n o objects hu ho => exact hholds n o (hupd _ hu) (h.updates _ hu o ho)
  | @address o d he =>
    exact hholds d o (hg.tables.lt_size he).2 (h.address (hgraph.edge he))
  | @copy a b o hc _ ih =>
    obtain ⟨ha, hb⟩ := hg.tables.lt_size_of_copyEdge hc
    refine hholds b o hb (hcopy a b o ?_ (hnode a o ha ih))
    obtain ⟨k, hk, he⟩ := hc
    exact ⟨k, hk, hgraph.edge he⟩
  | @load r d b o o' key he hr hobj _ _ ihb ihx =>
    have hb := hnode b o (hg.bases r b key hr) ihb
    have hserved := (h.ready.accesses r b key o (hgraph.isFieldRef_iff.2 hr) hb
      (hgraph.isObject_iff.2 hobj)).resolve_left (by simp)
    obtain ⟨x, hx, hxd⟩ := hserved.1 d (hgraph.edge he)
    obtain ⟨y, hy, hyo⟩ := ihx
    rw [← h.within.consistent.holder_of_isField hx] at hy
    cases h.within.consistent.holder_injective hy
    exact hholds d o' (hg.tables.lt_size he).2 (hcopy x d o' ⟨.copy, rfl, hxd⟩ hyo)
  | @store a r b o o' key he hr hobj _ _ ihb iha =>
    have hb := hnode b o (hg.bases r b key hr) ihb
    have ha := hnode a o' (hg.tables.lt_size he).1 iha
    have hserved := (h.ready.accesses r b key o (hgraph.isFieldRef_iff.2 hr) hb
      (hgraph.isObject_iff.2 hobj)).resolve_left (by simp)
    obtain ⟨x, hx, hax⟩ := hserved.2 a (hgraph.edge he)
    exact ⟨x, h.within.consistent.holder_of_isField hx, hcopy a x o' ⟨.copy, rfl, hax⟩ ha⟩

/-- Whatever the order of a run, its sets are the least ones. -/
theorem Solves.holds_iff (hrun : Solves retrigger updates v v') (hg : v.graph.Consistent s)
    (hv : Ready retrigger v) (hupd : ∀ u ∈ updates, u.1.index < v.graph.nodes.size)
    (x : Holder) (o : NodeId) :
    v'.Holds x o ↔ Flows v.graph v.points updates x o := by
  have hin : v.Within s (Flows v.graph v.points updates) := within_flows hg hv
  have h := hrun.solved hv hin (fun _ _ he => .address he)
    fun u hu => ⟨hupd u hu, fun o ho => .update hu ho⟩
  constructor
  · rintro ⟨n, rfl, ho⟩
    exact h.within.has n o ho
  · exact h.holds_of_flows hg hv hupd

/-- The least family depends only on the members of the sets. -/
theorem flows_congr {g : FlowGraph} {t t₂ : DiffTable} {updates₂ : List (NodeId × ObjectSet)}
    (ht : ∀ n o, t.Has n o → t₂.Has n o) (hu : ∀ u ∈ updates, u ∈ updates₂) {x : Holder}
    {o : NodeId} (h : Flows g t updates x o) : Flows g t₂ updates₂ x o := by
  induction h with
  | start ho => exact .start (ht _ _ ho)
  | update hmem ho => exact .update (hu _ hmem) ho
  | address he => exact .address he
  | copy hc _ ih => exact .copy hc ih
  | load he hr hobj _ _ ihb ihx => exact .load he hr hobj ihb ihx
  | store he hr hobj _ _ ihb iha => exact .store he hr hobj ihb iha

/-- A run ends with the least sets that the graph demands above the sets to start from and the
given objects, and tells whether some set grew. The sets are the same for any order in which the
queue, the waiting nodes, the given objects and the members of sets are gone through. The parts of
objects are named by object and part, since their nodes are added as they are needed. -/
theorem solve_least {g : FlowGraph} {t : DiffTable} {cursor : Nat} (hg : FlowGraph.Made s g)
    (hready : Ready retrigger { graph := g, points := t, cursor })
    (hupd : ∀ u ∈ updates, u.1.index < g.nodes.size)
    (hsolve : Solving.solve retrigger updates { graph := g, points := t, cursor } = .ok () v') :
    (∀ x o, v'.Holds x o ↔ Flows g t updates x o) ∧
    (v'.changed = true ↔ ∃ n o, v'.points.Has n o ∧ ¬ t.Has n o) ∧
    ∀ t₂ retrigger₂ updates₂ v₂, (∀ n o, t₂.Has n o ↔ t.Has n o) → (∀ n o, ¬ t₂.Owes n o) →
      retrigger₂.Perm retrigger → updates₂.Perm updates →
      Solves retrigger₂ updates₂ { graph := g, points := t₂, cursor } v₂ →
      ∀ x o, v₂.Holds x o ↔ v'.Holds x o := by
  have hc := hg.consistent
  have hrun := ensures_solve.1 hsolve
  refine ⟨hrun.holds_iff hc hready hupd, ?_, ?_⟩
  · have hin : Solver.Within s (Flows g t updates) { graph := g, points := t, cursor } :=
      within_flows hc hready
    have h := hrun.solved hready hin (fun _ _ he => .address he)
      fun u hu => ⟨hupd u hu, fun o ho => .update hu ho⟩
    simpa using h.extend.grew
  · intro t₂ retrigger₂ updates₂ v₂ ht howes hr hu hrun₂ x o
    have hready₂ : Ready retrigger₂ { graph := g, points := t₂, cursor } :=
      { range := fun n o ho => hready.range n o ((ht n o).1 ho), settled := howes
        addresses := fun i hi e he => (ht _ _).2 (hready.addresses i hi e he)
        copies := fun a b o hc ho => (hready.copies a b o hc ((ht a o).1 ho)).imp
          hr.mem_iff.2 (ht b o).2
        accesses := fun r b key o hk ho hobj =>
          (hready.accesses r b key o hk ((ht b o).1 ho) hobj).imp_left hr.mem_iff.2 }
    have hupd₂ : ∀ u ∈ updates₂, u.1.index < g.nodes.size := fun u h => hupd u (hu.mem_iff.1 h)
    rw [hrun.holds_iff hc hready hupd, hrun₂.holds_iff hc hready₂ hupd₂]
    constructor
    · exact flows_congr (fun n o => (ht n o).1) fun u => hu.mem_iff.1
    · exact flows_congr (fun n o => (ht n o).2) fun u => hu.mem_iff.2

/-- What is left to do is announced, where a load or a store already counts as done when the sets
are what it demands, whether or not a copy edge sees to it. -/
structure Balanced (retrigger : List NodeId) (v : Solver) : Prop where
  range : ∀ n o, v.points.Has n o → n.index < v.graph.nodes.size
  settled : ∀ n o, ¬ v.points.Owes n o
  addresses : ∀ i ∈ v.graph.addressEdges.toList.take v.cursor, ∀ e, v.graph.edge? i = some e →
    v.points.Has e.target e.source
  copies : ∀ a b o, v.graph.CopyEdge a b → v.points.Has a o → a ∈ retrigger ∨ v.points.Has b o
  loads : ∀ r d b key o, v.graph.Edge r d .load → v.graph.IsFieldRef r b key →
    v.points.Has b o → v.graph.IsObject o →
    b ∈ retrigger ∨ ∀ o', v.Holds (.part o key) o' → v.points.Has d o'
  stores : ∀ a r b key o, v.graph.Edge a r .write → v.graph.IsFieldRef r b key →
    v.points.Has b o → v.graph.IsObject o →
    b ∈ retrigger ∨ ∀ o', v.points.Has a o' → v.Holds (.part o key) o'

/-- An object with two bases: a part of it is read through the first one, which points to it, and
written through the second one, which will. -/
private def twoBases : Growing Unit := do
  let object ← Growing.synthetic .empty (.receiver ⟨0⟩) none
  let reader ← Growing.temporary .empty ⟨0⟩
  let read ← Growing.fieldRef reader (.named "f")
  let target ← Growing.temporary .empty ⟨1⟩
  let stored ← Growing.synthetic .empty (.receiver ⟨1⟩) none
  let source ← Growing.temporary .empty ⟨2⟩
  let writer ← Growing.temporary .empty ⟨3⟩
  let written ← Growing.fieldRef writer (.named "f")
  let _ ← Growing.addEdge read target .load none
  let _ ← Growing.addEdge stored source .address none
  let _ ← Growing.addEdge object writer .address none
  let _ ← Growing.addEdge source written .write none

private def twoBasesGraph : FlowGraph :=
  match twoBases {} with
  | .ok _ g | .error _ g => g

/-- Only the first base points to the object. -/
private def twoBasesSets : DiffTable := ((DiffTable.empty .dense).add ⟨1⟩ ⟨0⟩).2.flush ⟨1⟩

private def twoBasesStart : Solver :=
  { graph := twoBasesGraph, points := twoBasesSets, cursor := 0 }

private theorem made_twoBases : FlowGraph.Made {} twoBasesGraph := by
  refine ⟨twoBases, ?_, rfl⟩
  refine .bind (.synthetic ..) fun _ => .bind (.temporary ..) fun _ => .bind (.fieldRef ..) fun _ =>
    .bind (.temporary ..) fun _ => .bind (.synthetic ..) fun _ => .bind (.temporary ..) fun _ =>
    .bind (.temporary ..) fun _ => .bind (.fieldRef ..) fun _ => .bind (.addEdge ..) fun _ =>
    .bind (.addEdge ..) fun _ => .bind (.addEdge ..) fun _ => .bind (.addEdge ..) fun _ => .pure ()

private theorem twoBases_edges : twoBasesGraph.edges =
    #[⟨⟨2⟩, ⟨3⟩, .load, none⟩, ⟨⟨4⟩, ⟨5⟩, .address, none⟩, ⟨⟨0⟩, ⟨6⟩, .address, none⟩,
      ⟨⟨5⟩, ⟨7⟩, .write, none⟩] := by
  decide +kernel

private theorem not_copyEdge_twoBases (a b : NodeId) : ¬ twoBasesGraph.CopyEdge a b := by
  rintro ⟨k, hk, e, he, -, -, rfl⟩
  rw [twoBases_edges] at he
  revert e
  decide

private theorem has_twoBases {n o : NodeId} : twoBasesSets.Has n o ↔ n = ⟨1⟩ ∧ o = ⟨0⟩ := by
  have hempty : ∀ n o, ¬ (DiffTable.empty .dense).Has n o := by
    intro n o
    simp [DiffTable.has_iff, DiffTable.Passed, DiffTable.Owes, DiffTable.settledOf,
      DiffTable.pendingOf, DiffTable.empty]
  rw [twoBasesSets, DiffTable.has_flush, (DiffTable.add_gains ..).has]
  simp [hempty]

private theorem not_owes_twoBases (n o : NodeId) : ¬ twoBasesSets.Owes n o := by
  rw [twoBasesSets, DiffTable.owes_flush, (DiffTable.add_gains ..).owes]
  rintro ⟨ho | ⟨rfl, -⟩, hn⟩
  · simp [DiffTable.Owes, DiffTable.pendingOf, DiffTable.empty] at ho
  · exact hn rfl

private theorem isFieldRef_twoBases {r b : NodeId} {key : FieldKey}
    (h : twoBasesGraph.IsFieldRef r b key) :
    (r = ⟨2⟩ ∧ b = ⟨1⟩ ∨ r = ⟨7⟩ ∧ b = ⟨6⟩) ∧ key = .named "f" := by
  obtain ⟨a, ha, hk⟩ := h
  have hall : ∀ i < twoBasesGraph.nodes.size, ∀ x ∈ (twoBasesGraph.nodes[i]?).bind Node.fieldRef?,
      (i = 2 ∧ x.1 = ⟨1⟩ ∨ i = 7 ∧ x.1 = ⟨6⟩) ∧ x.2 = .named "f" := by
    decide +kernel
  have hx := hall r.index ha.lt_size (b, key)
    (by rw [ha]; exact Node.fieldRef?_eq_some.2 hk)
  exact ⟨hx.1.imp (And.imp_left Ref.index_inj.1) (And.imp_left Ref.index_inj.1), hx.2⟩

/-- The first base passes on its whole set again, so that what is stored through the second base is
read through the first one. -/
theorem solve_least_two_bases : ∃ (g : FlowGraph) (t : DiffTable) (v' : Solver),
    FlowGraph.Made {} g ∧ Ready [⟨1⟩] { graph := g, points := t, cursor := 0 } ∧
    Solving.solve [⟨1⟩] [] { graph := g, points := t, cursor := 0 } = .ok () v' ∧
    v'.points.Has ⟨3⟩ ⟨4⟩ ∧ ∀ x o, v'.Holds x o ↔ Flows g t [] x o := by
  have hready : Ready [⟨1⟩] twoBasesStart :=
    { range := fun n o ho => by
        rw [(has_twoBases.1 ho).1]
        decide +kernel
      settled := not_owes_twoBases
      addresses := by simp [twoBasesStart]
      copies := fun a b o hc => absurd hc (not_copyEdge_twoBases a b)
      accesses := fun r b key o _ ho _ => by
        rw [(has_twoBases.1 ho).1]
        exact .inl (.head _) }
  obtain ⟨_, v', hv', hhas⟩ := exists_of_endsWith (r := Solving.solve [⟨1⟩] [] twoBasesStart)
    (q := fun _ v => (v.points.get ⟨3⟩).contains ⟨4⟩) (by decide +kernel)
  exact ⟨_, _, v', made_twoBases, hready, hv', hhas,
    (solve_least made_twoBases hready (by simp) hv').1⟩

/-- Without a copy edge for it, a load that has nothing to do yet is forgotten: what is stored
through the second base later does not reach it. -/
theorem solve_not_least_of_balanced : ∃ (g : FlowGraph) (t : DiffTable) (v' : Solver),
    FlowGraph.Made {} g ∧ Balanced [] { graph := g, points := t, cursor := 0 } ∧
    Solving.solve [] [] { graph := g, points := t, cursor := 0 } = .ok () v' ∧
    ∃ x o, Flows g t [] x o ∧ ¬ v'.Holds x o := by
  have hedge : ∀ a b k, twoBasesGraph.Edge a b k ↔ (a, b, k) ∈ [(⟨2⟩, ⟨3⟩, EdgeKind.load),
      (⟨4⟩, ⟨5⟩, .address), (⟨0⟩, ⟨6⟩, .address), (⟨5⟩, ⟨7⟩, .write)] := by
    intro a b k
    simp [FlowGraph.Edge, twoBases_edges, @eq_comm _ a, @eq_comm _ b, @eq_comm _ k]
  have hone : twoBasesGraph.holder ⟨1⟩ = .node ⟨1⟩ := by decide +kernel
  have hbalanced : Balanced [] twoBasesStart :=
    { range := fun n o ho => by
        rw [(has_twoBases.1 ho).1]
        decide +kernel
      settled := not_owes_twoBases
      addresses := by simp [twoBasesStart]
      copies := fun a b o hc => absurd hc (not_copyEdge_twoBases a b)
      loads := by
        -- no part of the object has a set yet
        rintro r d b key o - - - -
        refine .inr ?_
        rintro o' ⟨n, hn, ho'⟩
        rw [(has_twoBases.1 ho').1, twoBasesStart, hone] at hn
        cases hn
      stores := by
        -- the base that is written through points to nothing yet
        intro a r b key o he hr ho
        have hb : b = ⟨1⟩ := (has_twoBases.1 ho).1
        have hr7 : a = ⟨5⟩ ∧ r = ⟨7⟩ := by simpa using (hedge a r .write).1 he
        rcases (isFieldRef_twoBases hr).1 with ⟨hr2, -⟩ | ⟨-, hb6⟩
        · simp [hr7.2] at hr2
        · simp [hb] at hb6 }
  obtain ⟨_, v', hv', hlast⟩ := exists_of_endsWith (r := Solving.solve [] [] twoBasesStart)
    (q := fun _ v => !(v.points.get ⟨3⟩).contains ⟨4⟩) (by decide +kernel)
  refine ⟨_, _, v', made_twoBases, hbalanced, hv', .node ⟨3⟩, ⟨4⟩, ?_, ?_⟩
  · have hthree : twoBasesGraph.holder ⟨3⟩ = .node ⟨3⟩ := by decide +kernel
    have hobject : twoBasesGraph.IsObject ⟨0⟩ := by
      have : ((twoBasesGraph.nodes[0]?).map Node.isObject) = some true := by decide +kernel
      obtain ⟨a, ha, hobj⟩ := Option.map_eq_some_iff.1 this
      exact ⟨a, ha, hobj⟩
    have href : ∀ r b : NodeId, ((twoBasesGraph.nodes[r.index]?).bind Node.fieldRef?) =
        some (b, .named "f") → twoBasesGraph.IsFieldRef r b (.named "f") := by
      intro r b h
      obtain ⟨a, ha, hk⟩ := Option.bind_eq_some_iff.1 h
      exact ⟨a, ha, Node.fieldRef?_eq_some.1 hk⟩
    rw [← hthree]
    have hpart : Flows twoBasesGraph twoBasesSets [] (.part ⟨0⟩ (.named "f")) ⟨4⟩ :=
      .store ((hedge ⟨5⟩ ⟨7⟩ .write).2 (by simp)) (href ⟨7⟩ ⟨6⟩ (by decide +kernel)) hobject
        (.address ((hedge ⟨0⟩ ⟨6⟩ .address).2 (by simp)))
        (.address ((hedge ⟨4⟩ ⟨5⟩ .address).2 (by simp)))
    exact .load ((hedge ⟨2⟩ ⟨3⟩ .load).2 (by simp)) (href ⟨2⟩ ⟨1⟩ (by decide +kernel)) hobject
      (.start (has_twoBases.2 ⟨rfl, rfl⟩)) hpart
  · rintro ⟨n, hn, ho⟩
    cases FlowGraph.eq_of_holder_eq_node hn
    rw [Bool.not_eq_true', ← Bool.not_eq_true] at hlast
    exact hlast ho

end Solver

end PointsTo
