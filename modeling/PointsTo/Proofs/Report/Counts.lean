import Mathlib.Data.List.Nodup
import PointsTo.Proofs.Analysis.Reachable
import PointsTo.Proofs.Points.Changes
import PointsTo.Proofs.Points.Families
import PointsTo.Report.Statistics

/-! The statistics of an analysis count what its results hold. -/
namespace PointsTo

section Counting

variable {α β : Type} {P : α → Prop} {Q : β → Prop} {k l : Nat}

/-- Exactly `n` things have the property. -/
def Counts (P : α → Prop) (n : Nat) : Prop :=
  ∃ all : List α, all.Nodup ∧ (∀ a, a ∈ all ↔ P a) ∧ all.length = n

theorem Counts.congr {P' : α → Prop} (h : Counts P k) (hP : ∀ a, P a ↔ P' a) : Counts P' k := by
  obtain ⟨all, hnodup, hmem, hlen⟩ := h
  exact ⟨all, hnodup, fun a => (hmem a).trans (hP a), hlen⟩

/-- There are no more images than things that have one. -/
theorem Counts.le (h : Counts P k) (h' : Counts Q l) (f : α → Option β)
    (hf : ∀ b, Q b → ∃ a, P a ∧ f a = some b) : l ≤ k := by
  obtain ⟨as, -, has, rfl⟩ := h
  obtain ⟨bs, hnodup, hbs, rfl⟩ := h'
  have himages : bs ⊆ as.filterMap f := fun b hb => by
    obtain ⟨a, ha, hfa⟩ := hf b ((hbs b).1 hb)
    exact List.mem_filterMap.2 ⟨a, (has a).2 ha, hfa⟩
  exact (hnodup.subperm himages).length_le.trans (List.length_filterMap_le f as)

/-- The sizes of the rows of a table add up to the number of pairs. -/
theorem counts_rows (rows : List (α × List β)) (hkeys : (rows.map (·.1)).Nodup)
    (hrows : ∀ r ∈ rows, r.2.Nodup) :
    Counts (fun x : α × β => ∃ row, (x.1, row) ∈ rows ∧ x.2 ∈ row)
      (rows.foldr (fun r n => r.2.length + n) 0) := by
  induction rows with
  | nil => exact ⟨[], .nil, by simp, rfl⟩
  | cons r rows ih =>
    obtain ⟨hkey, hkeys⟩ := List.nodup_cons.1 hkeys
    obtain ⟨all, hnodup, hmem, hlen⟩ := ih hkeys fun r' hr' => hrows r' (.tail _ hr')
    refine ⟨r.2.map (r.1, ·) ++ all, List.nodup_append.2 ⟨?_, hnodup, ?_⟩, fun x => ?_, ?_⟩
    · exact (hrows r (.head _)).map fun _ _ h => (Prod.mk.inj h).2
    · rintro x hx y hy rfl
      obtain ⟨b, -, rfl⟩ := List.mem_map.1 hx
      obtain ⟨row, hrow, -⟩ := (hmem _).1 hy
      exact hkey (List.mem_map.2 ⟨_, hrow, rfl⟩)
    · obtain ⟨a, b⟩ := x
      obtain ⟨key, row⟩ := r
      simp only [List.mem_append, List.mem_map, Prod.mk.injEq, hmem, List.mem_cons]
      grind
    · simp [hlen]

end Counting

/-- The edges of the different kinds make up all edges. -/
theorem FlowGraph.foldr_countOf (g : FlowGraph) :
    EdgeKind.all.foldr (fun kind n => g.countOf kind + n) 0 = g.edges.size := by
  simp only [EdgeKind.all, List.foldr, countOf, ← Array.length_toList]
  induction g.edges.toList with
  | nil => rfl
  | cons e l ih =>
    simp only [List.filter_cons, List.length_cons]
    cases e.kind <;> simp <;> omega

theorem CallGraph.countOf_add (g : CallGraph) :
    g.countOf .static + g.countOf .dynamic + g.countOf .special = g.edges.size := by
  simp only [countOf, ← Array.length_toList]
  induction g.edges.toList with
  | nil => rfl
  | cons e l ih =>
    simp only [List.filter_cons, List.length_cons]
    cases e.type <;> simp <;> omega

/-- The value that a node stands for. -/
def FlowGraph.valueAt? (g : FlowGraph) (n : NodeId) : Option ValueId :=
  g.nodes[n.index]?.bind Node.value?

namespace State

variable (s : State)

/-- A node that points to something. -/
def IsPointer (n : NodeId) : Prop := ∃ o, s.points.Has n o

/-- A value that points to something under some context. -/
def IsValuePointer (v : ValueId) : Prop := ∃ n, s.IsPointer n ∧ s.graph.valueAt? n = some v

/-- The value `v` points to an object that stands for the value `w`, under some context. -/
def Relates (v w : ValueId) : Prop :=
  ∃ n o, s.points.Has n o ∧ s.graph.valueAt? n = some v ∧ s.graph.valueAt? o = some w

end State

/-- What the statistics of a state say is true of it. -/
structure Statistics.Describes (c : Statistics) (s : State) : Prop where
  pointers : Counts s.IsPointer c.sensitive.pointers
  relations : Counts (fun x : NodeId × NodeId => s.points.Has x.1 x.2) c.sensitive.relations
  valuePointers : Counts s.IsValuePointer c.insensitive.pointers
  valueRelations : Counts (fun x : ValueId × ValueId => s.Relates x.1 x.2) c.insensitive.relations
  pointers_le : c.insensitive.pointers ≤ c.sensitive.pointers
  relations_le : c.insensitive.relations ≤ c.sensitive.relations
  edges : c.edges = s.graph.edges.size
  edgesByKind : c.edgesByKind.foldr (fun e n => e.2 + n) 0 = c.edges
  calls : c.staticCalls + c.dynamicCalls + c.specialCalls = s.calls.edges.size

namespace Statistics

variable {s : State}

/-- The table of the values with a node entered. -/
def tally (s : State) (table : Std.TreeMap ValueId (Std.TreeSet ValueId)) (n : NodeId) :
    Std.TreeMap ValueId (Std.TreeSet ValueId) :=
  match s.graph.valueAt? n with
  | none => table
  | some v => table.insert v
      (((s.points.get n).toList.filterMap s.graph.valueAt?).foldl (·.insert ·) ((table[v]?).getD ∅))

theorem node_eq_ok {g : FlowGraph} {n : NodeId} (h : g.HasNode n) :
    ∃ a, g.node n = .ok a ∧ g.valueAt? n = a.value? := by
  obtain ⟨a, ha, -⟩ := answers_fetch h
  exact ⟨a, ha, by rw [FlowGraph.valueAt?, Ref.fetch_eq_ok_iff.1 ha, Option.bind_some]⟩

theorem mapM_node {g : FlowGraph} {l : List NodeId} (h : ∀ n ∈ l, g.HasNode n) :
    (l.mapM fun n => return (← g.node n).value? : Except Fault _) = .ok (l.map g.valueAt?) := by
  induction l with
  | nil => rfl
  | cons n l ih =>
    obtain ⟨a, ha, hvalue⟩ := node_eq_ok (h n (.head _))
    rw [List.mapM_cons, ih fun k hk => h k (.tail _ hk), List.map_cons, hvalue, ha]
    rfl

/-- Where all nodes exist the table is made without a fault. -/
theorem valuePoints_eq (h : ∀ n o, s.points.Has n o → s.graph.HasNode n ∧ s.graph.HasNode o) :
    valuePoints s = .ok (s.points.keys.foldl (tally s) ∅) := by
  have hkeys : ∀ n ∈ s.points.keys, s.graph.HasNode n := by
    intro n hn
    obtain ⟨o, ho⟩ := DiffTable.mem_keys.1 hn
    exact (h n o (DiffTable.mem_whole.1 ho)).1
  unfold valuePoints
  generalize s.points.keys = keys at hkeys
  generalize (∅ : Std.TreeMap ValueId (Std.TreeSet ValueId)) = table
  induction keys generalizing table with
  | nil => rfl
  | cons n keys ih =>
    obtain ⟨a, ha, hvalue⟩ := node_eq_ok (hkeys n (.head _))
    have hobjects := mapM_node (g := s.graph) (l := (s.points.get n).toList) fun o ho =>
      (h n o (ObjectSet.mem_toList.1 ho)).2
    rw [List.foldlM_cons, List.foldl_cons, ← ih fun k hk => hkeys k (.tail _ hk), ha]
    cases hv : a.value? with
    | none => simp [tally, hvalue, hv, Bind.bind, Except.bind, Pure.pure, Except.pure]
    | some v =>
      simp only [Bind.bind, Except.bind, hv] at hobjects ⊢
      rw [hobjects]
      simp [tally, hvalue, hv, Pure.pure, Except.pure, List.filterMap_map]

section Tally

variable {table : Std.TreeMap ValueId (Std.TreeSet ValueId)} {n : NodeId} {v w : ValueId}

theorem mem_tally : v ∈ tally s table n ↔ v ∈ table ∨ s.graph.valueAt? n = some v := by
  unfold tally
  cases s.graph.valueAt? n with
  | none => simp
  | some u => rw [mem_insert_map, Option.some.injEq, or_comm]

theorem mem_row_tally : w ∈ ((tally s table n)[v]?).getD ∅ ↔ w ∈ (table[v]?).getD ∅ ∨
    s.graph.valueAt? n = some v ∧ ∃ o, s.points.Has n o ∧ s.graph.valueAt? o = some w := by
  unfold tally
  cases s.graph.valueAt? n with
  | none => simp
  | some u =>
    rw [getElem?_insert]
    by_cases hu : u = v
    · subst hu
      simp [mem_foldl_insert, ObjectSet.mem_toList, DiffTable.Has]
    · simp [hu]

theorem mem_foldl_tally (l : List NodeId) :
    v ∈ l.foldl (tally s) table ↔ v ∈ table ∨ ∃ n ∈ l, s.graph.valueAt? n = some v := by
  induction l generalizing table with
  | nil => simp
  | cons n l ih => simp [ih, mem_tally, or_assoc]

theorem mem_row_foldl_tally (l : List NodeId) :
    w ∈ ((l.foldl (tally s) table)[v]?).getD ∅ ↔ w ∈ (table[v]?).getD ∅ ∨ ∃ n ∈ l,
      s.graph.valueAt? n = some v ∧ ∃ o, s.points.Has n o ∧ s.graph.valueAt? o = some w := by
  induction l generalizing table with
  | nil => simp
  | cons n l ih => simp [ih, mem_row_tally, or_assoc]

/-- A table of sets counts its keys, and its rows count the pairs. -/
theorem counts_table (table : Std.TreeMap ValueId (Std.TreeSet ValueId)) :
    Counts (· ∈ table) table.size ∧
      Counts (fun x : ValueId × ValueId => x.2 ∈ (table[x.1]?).getD ∅)
        (table.toList.foldr (fun entry n => entry.2.size + n) 0) := by
  have hkeys : table.keys.Nodup := table.distinct_keys.imp fun h heq => h (by simp [heq])
  refine ⟨⟨table.keys, hkeys, fun v => Std.TreeMap.mem_keys, table.length_keys⟩, ?_⟩
  have hrows := counts_rows (table.toList.map fun e => (e.1, e.2.toList))
    (by simpa [Function.comp_def, Std.TreeMap.map_fst_toList_eq_keys] using hkeys) fun r hr => by
      obtain ⟨e, -, rfl⟩ := List.mem_map.1 hr
      exact e.2.distinct_toList.imp fun h heq => h (by simp [heq])
  simp only [List.foldr_map, Std.TreeSet.length_toList] at hrows
  refine hrows.congr fun x => ?_
  simp only [List.mem_map, Prod.exists, Prod.mk.injEq, Std.TreeMap.mem_toList_iff_getElem?_eq_some]
  cases hx : table[x.1]? with
  | none => grind
  | some row => grind

end Tally

section Points

variable (s)

theorem mem_keys_iff_isPointer (n : NodeId) : n ∈ s.points.keys ↔ s.IsPointer n := by
  simp [DiffTable.mem_keys, Finset.Nonempty, State.IsPointer]

theorem counts_pointers : s.points.keys.Nodup ∧ Counts s.IsPointer s.points.keys.length := by
  have hnodup : s.points.keys.Nodup := by
    rw [DiffTable.keys]
    exact Std.TreeSet.distinct_toList.imp fun h heq => h (by simp [heq])
  exact ⟨hnodup, _, hnodup, mem_keys_iff_isPointer s, rfl⟩

theorem counts_relations : Counts (fun x : NodeId × NodeId => s.points.Has x.1 x.2)
    (s.points.keys.foldr (fun key n => (s.points.get key).size + n) 0) := by
  have hrows := counts_rows (s.points.keys.map fun n => (n, (s.points.get n).toList))
    (by simpa [Function.comp_def] using (counts_pointers s).1) fun r hr => by
      obtain ⟨n, -, rfl⟩ := List.mem_map.1 hr
      exact ObjectSet.nodup_toList _
  simp only [List.foldr_map, ObjectSet.length_toList] at hrows
  refine hrows.congr fun x => ⟨?_, fun ho => ?_⟩
  · rintro ⟨row, hrow, ho⟩
    obtain ⟨n, -, heq⟩ := List.mem_map.1 hrow
    cases heq
    exact ObjectSet.mem_toList.1 ho
  · have hkey := (mem_keys_iff_isPointer s x.1).2 ⟨x.2, ho⟩
    exact ⟨_, List.mem_map_of_mem hkey, ObjectSet.mem_toList.2 ho⟩

/-- The table of all nodes has the values that point to something. -/
theorem mem_tallied (v : ValueId) : v ∈ s.points.keys.foldl (tally s) ∅ ↔ s.IsValuePointer v := by
  simp [mem_foldl_tally, mem_keys_iff_isPointer, State.IsValuePointer]

theorem mem_row_tallied (x : ValueId × ValueId) :
    x.2 ∈ ((s.points.keys.foldl (tally s) ∅)[x.1]?).getD ∅ ↔ s.Relates x.1 x.2 := by
  simp only [mem_row_foldl_tally, mem_keys_iff_isPointer, State.Relates]
  constructor
  · rintro (h | ⟨n, -, hv, o, ho, hw⟩)
    · simp at h
    · exact ⟨n, o, ho, hv, hw⟩
  · rintro ⟨n, o, ho, hv, hw⟩
    exact .inr ⟨n, ⟨o, ho⟩, hv, o, ho, hw⟩

end Points

/-- Statistics describe a state whose points-to data are about nodes that exist. -/
theorem describes_of_ofState {scene : Scene} {c : Statistics}
    (hnodes : ∀ n o, s.points.Has n o → s.graph.HasNode n ∧ s.graph.HasNode o)
    (hc : ofState scene s = .ok c) : c.Describes s := by
  have hpointers := (counts_pointers s).2
  have hrelations := counts_relations s
  have hvalues := (counts_table (s.points.keys.foldl (tally s) ∅)).1.congr (mem_tallied s)
  have hpairs := (counts_table (s.points.keys.foldl (tally s) ∅)).2.congr (mem_row_tallied s)
  rw [ofState, valuePoints_eq hnodes] at hc
  simp only [Bind.bind, Except.bind] at hc
  split at hc
  · cases hc
  split at hc
  · cases hc
  cases hc
  refine ⟨hpointers, hrelations, hvalues, hpairs, ?_, ?_, rfl, ?_, s.calls.countOf_add⟩
  · exact hpointers.le hvalues s.graph.valueAt? fun v hv => hv
  · refine hrelations.le hpairs
      (fun x => (s.graph.valueAt? x.1).bind fun v => (s.graph.valueAt? x.2).map (v, ·)) ?_
    rintro ⟨v, w⟩ ⟨n, o, ho, hv, hw⟩
    exact ⟨(n, o), ho, by simp [hv, hw]⟩
  · simpa [List.foldr_map] using s.graph.foldr_countOf

end Statistics

/-- In a well-formed scene every state that an analysis comes to has statistics. What they say is true
of the state in any scene: they count the nodes that point to something, the pairs of a node and an
object, the values behind these nodes and the pairs of values behind these pairs, so that there are at
most as many of the latter; and the edges of the different kinds make up all edges. -/
theorem Problem.statistics_describe {p : Problem} {s : State} (h : p.Visits s) :
    (p.scene.WellFormed → ∃ c, Statistics.ofState p.scene s = .ok c) ∧
      ∀ c, Statistics.ofState p.scene s = .ok c → c.Describes s := by
  have hrange := h.inRange
  have hnodes : ∀ n o, s.points.Has n o → s.graph.HasNode n ∧ s.graph.HasNode o := hrange.points
  refine ⟨fun hp => ?_, fun c hc => Statistics.describes_of_ofState hnodes hc⟩
  have hreached : ∀ m ∈ s.calls.reached.toList, p.scene.Has .method m := fun m hm =>
    hrange.calls.reached m (Array.mem_toList_iff.1 hm) hp
  have hunhandled : Answers (s.unhandled p.scene) fun l => ∀ m ∈ l, p.scene.Has .method m := by
    refine Answers.filterM hreached fun m hm => ?_
    split
    · exact .pure trivial
    · exact (hp.classOfMethod (hreached m hm)).bind fun _ _ => .pure trivial
  obtain ⟨c, hc, -⟩ : Answers (Statistics.ofState p.scene s) fun _ => True := by
    rw [Statistics.ofState, Statistics.valuePoints_eq hnodes]
    refine hunhandled.bind fun l hl => ?_
    refine Answers.bind (Q := fun _ => True) (.mapM fun m hm => ?_) fun _ _ => .pure trivial
    exact (hp.method (hl m hm)).bind fun _ _ => .pure trivial
  exact ⟨c, hc⟩

/-- The field that holds the function points to something and stands for no value. -/
theorem Problem.statistics_describe_storedFunction : ∃ s c, storedFunction.Visits s ∧
    Statistics.ofState storedFunction.scene s = .ok c ∧ c.Describes s ∧
      c.sensitive = ⟨4, 4⟩ ∧ c.insensitive = ⟨3, 3⟩ := by
  obtain ⟨_, s, hrun, hs⟩ := exists_of_endsWith (r := storedFunction.analyze 3)
    (q := fun _ s => (Statistics.ofState storedFunction.scene s).toOption.any fun c : Statistics =>
      decide (c.sensitive = ⟨4, 4⟩ ∧ c.insensitive = ⟨3, 3⟩)) (by decide +kernel)
  have hvisits : storedFunction.Visits s := visits_of_analyze (e := .outOfFuel) (.inl hrun)
  obtain ⟨hexists, hdescribes⟩ := statistics_describe hvisits
  obtain ⟨c, hc⟩ := hexists (Scene.Ordered.wellFormed (by decide +kernel))
  refine ⟨s, c, hvisits, hc, hdescribes c hc, ?_⟩
  simpa [hc, Except.toOption] using hs

end PointsTo
