import PointsTo.Flow.Graph
import PointsTo.Proofs.Ensures
import PointsTo.Proofs.Lookup

/-! The tables of edges of a flow graph list exactly its edges. -/
namespace PointsTo

/-- A kind without what may change about a node: its calls, its marks and its element slot. -/
def NodeKind.shape : NodeKind → NodeKind
  | .var _ => .var {}
  | .receiver _ => .receiver {}
  | .globalObject _ => .globalObject {}
  | .staticField _ => .staticField {}
  | .container kind _ => .container kind none
  | kind => kind

namespace Node

variable {a a' : Node}

/-- Whether a call is attached to a node in any of the three ways. -/
def Registers (a : Node) (d : SiteId × ContextId) : Prop :=
  ∃ info, a.pointer? = some info ∧
    (d ∈ info.dynamicCalls ∨ d ∈ info.unknownCalls ∨ d ∈ info.instanceCalls)

/-- The same node at a later time. -/
structure Keeps (a a' : Node) : Prop where
  context : a'.context = a.context
  location : a'.location = a.location
  stmt : a'.stmt = a.stmt
  shape : a'.kind.shape = a.kind.shape
  fields : ∀ k x, a.fields.lookup k = some x → a'.fields.lookup k = some x
  fieldRefs : ∀ r ∈ a.fieldRefs, r ∈ a'.fieldRefs

theorem Keeps.refl (a : Node) : a.Keeps a := ⟨rfl, rfl, rfl, rfl, fun _ _ h => h, fun _ h => h⟩

theorem Keeps.trans {b c : Node} (h : a.Keeps b) (h' : b.Keeps c) : a.Keeps c where
  context := h'.context.trans h.context
  location := h'.location.trans h.location
  stmt := h'.stmt.trans h.stmt
  shape := h'.shape.trans h.shape
  fields k x hk := h'.fields k x (h.fields k x hk)
  fieldRefs r hr := h'.fieldRefs r (h.fieldRefs r hr)

/-- What calls depend on is the same for nodes of one shape. -/
theorem eq_of_shape (h : a'.kind.shape = a.kind.shape) :
    a'.isObject = a.isObject ∧ a'.fieldRef? = a.fieldRef? ∧ a'.function? = a.function? ∧
      a'.objectClass? = a.objectClass? ∧ a'.container? = a.container? := by
  unfold isObject fieldRef? function? objectClass? container?
  cases ha : a.kind <;> cases ha' : a'.kind <;> simp_all [NodeKind.shape]

theorem Keeps.isObject (h : a.Keeps a') : a'.isObject = a.isObject :=
  (eq_of_shape h.shape).1

theorem Keeps.fieldRef? (h : a.Keeps a') : a'.fieldRef? = a.fieldRef? :=
  (eq_of_shape h.shape).2.1

theorem Keeps.function? (h : a.Keeps a') : a'.function? = a.function? :=
  (eq_of_shape h.shape).2.2.1

theorem Keeps.isFunction (h : a.Keeps a') : a'.isFunction = a.isFunction := by
  rw [Node.isFunction, Node.isFunction, h.function?]

theorem Keeps.pointer?_isSome (h : a.Keeps a') : a'.pointer?.isSome = a.pointer?.isSome := by
  have hshape := h.shape
  unfold pointer?
  cases ha : a.kind <;> cases ha' : a'.kind <;> simp_all [NodeKind.shape]

theorem fieldRef?_eq_some {b : NodeId} {key : FieldKey} :
    a.fieldRef? = some (b, key) ↔ a.kind = .fieldRef b key := by
  unfold Node.fieldRef?
  cases a.kind <;> simp

/-- What is attached to a node is not part of what a node keeps. -/
theorem mapPointer_keeps (a : Node) (f : PointerInfo → PointerInfo) :
    a.Keeps (a.mapPointer f) ∧ (a.mapPointer f).fieldRefs = a.fieldRefs ∧
      (a.mapPointer f).fields = a.fields := by
  unfold Node.mapPointer
  split
  case h_5 => exact ⟨.refl a, rfl, rfl⟩
  all_goals
    next hk =>
    exact ⟨⟨rfl, rfl, rfl, by simp [hk, NodeKind.shape], fun _ _ h => h, fun _ h => h⟩, rfl, rfl⟩

theorem pointer?_mapPointer (a : Node) (f : PointerInfo → PointerInfo) :
    (a.mapPointer f).pointer? = a.pointer?.map f := by
  unfold Node.mapPointer Node.pointer?
  cases h : a.kind <;> simp [h]

end Node

namespace FlowGraph

/-- An edge of the graph. -/
def Edge (g : FlowGraph) (a b : NodeId) (k : EdgeKind) : Prop :=
  ∃ e ∈ g.edges, e.source = a ∧ e.target = b ∧ e.kind = k

/-- An edge along which sets flow unchanged. -/
def CopyEdge (g : FlowGraph) (a b : NodeId) : Prop := ∃ k : EdgeKind, k.isCopyLike ∧ g.Edge a b k

/-- Whether `a` is the node at `n`. -/
abbrev At (g : FlowGraph) (n : NodeId) (a : Node) : Prop := g.nodes[n.index]? = some a

/-- Whether a call is attached to the node `n`. -/
def Registers (g : FlowGraph) (n : NodeId) (d : SiteId × ContextId) : Prop :=
  ∃ a, g.At n a ∧ a.Registers d

/-- A call is among those of one kind that are attached to a node. -/
def Attaches (g : FlowGraph) (calls : PointerInfo → List (SiteId × ContextId)) (n : NodeId)
    (d : SiteId × ContextId) : Prop :=
  ∃ a info, g.At n a ∧ a.pointer? = some info ∧ d ∈ calls info

/-- Whether `n` is a heap object. -/
def IsObject (g : FlowGraph) (n : NodeId) : Prop :=
  ∃ a, g.At n a ∧ a.isObject = true

/-- Whether `n` is a function. -/
def IsFunction (g : FlowGraph) (n : NodeId) : Prop :=
  ∃ a, g.At n a ∧ a.isFunction = true

/-- Whether `r` is a reference to a part of what `b` points to. -/
def IsFieldRef (g : FlowGraph) (r b : NodeId) (key : FieldKey) : Prop :=
  ∃ a, g.At r a ∧ a.kind = .fieldRef b key

/-- Whether `x` is the node of a part of the object `o`. -/
def IsField (g : FlowGraph) (x o : NodeId) (key : FieldKey) : Prop :=
  ∃ a, g.At o a ∧ a.fields.lookup key = some x

theorem IsField.unique {g : FlowGraph} {x y o : NodeId} {key : FieldKey} (hx : g.IsField x o key)
    (hy : g.IsField y o key) : x = y := by
  obtain ⟨a, ha, hx⟩ := hx
  obtain ⟨b, hb, hy⟩ := hy
  cases Option.some.inj (ha.symm.trans hb)
  exact Option.some.inj (hx.symm.trans hy)

theorem node_eq_ok {g : FlowGraph} {n : NodeId} {a : Node} :
    g.node n = .ok a ↔ g.At n a :=
  Ref.fetch_eq_ok_iff

/-- The tables of edges list exactly the edges, which lie between nodes of the graph. -/
structure EdgeTables (g : FlowGraph) : Prop where
  outgoing : ∀ n k i, i ∈ (g.outgoing[(n, k)]?).getD [] ↔
    ∃ e, g.edge? i = some e ∧ e.source = n ∧ e.kind = k
  incoming : ∀ n k i, i ∈ (g.incoming[(n, k)]?).getD [] ↔
    ∃ e, g.edge? i = some e ∧ e.target = n ∧ e.kind = k
  addresses : ∀ i, i ∈ g.addressEdges ↔ ∃ e, g.edge? i = some e ∧ e.kind = .address
  ends : ∀ e ∈ g.edges, e.source.index < g.nodes.size ∧ e.target.index < g.nodes.size

private theorem mem_edges_iff {g : FlowGraph} {e : FlowEdge} :
    e ∈ g.edges ↔ ∃ i, g.edge? i = some e := by
  rw [Array.mem_iff_getElem?]
  constructor
  · rintro ⟨i, hi⟩
    exact ⟨⟨i⟩, hi⟩
  · rintro ⟨i, hi⟩
    exact ⟨i.index, hi⟩

section Tables

variable {g : FlowGraph} {a b : NodeId} {k : EdgeKind}

theorem EdgeTables.mem_successors (h : g.EdgeTables) : b ∈ g.successors a k ↔ g.Edge a b k := by
  simp only [successors, List.mem_filterMap, h.outgoing, Option.map_eq_some_iff, Edge,
    mem_edges_iff]
  constructor
  · rintro ⟨i, ⟨e, hi, ha, hk⟩, e', hi', hb⟩
    cases Option.some.inj (hi.symm.trans hi')
    exact ⟨e, ⟨i, hi⟩, ha, hb, hk⟩
  · rintro ⟨e, ⟨i, hi⟩, ha, hb, hk⟩
    exact ⟨i, ⟨e, hi, ha, hk⟩, e, hi, hb⟩

theorem EdgeTables.mem_predecessors (h : g.EdgeTables) : a ∈ g.predecessors b k ↔ g.Edge a b k := by
  simp only [predecessors, List.mem_filterMap, h.incoming, Option.map_eq_some_iff, Edge,
    mem_edges_iff]
  constructor
  · rintro ⟨i, ⟨e, hi, hb, hk⟩, e', hi', ha⟩
    cases Option.some.inj (hi.symm.trans hi')
    exact ⟨e, ⟨i, hi⟩, ha, hb, hk⟩
  · rintro ⟨e, ⟨i, hi⟩, ha, hb, hk⟩
    exact ⟨i, ⟨e, hi, hb, hk⟩, e, hi, ha⟩

theorem EdgeTables.hasEdge_iff (h : g.EdgeTables) : g.hasEdge a b k = true ↔ g.Edge a b k := by
  rw [hasEdge, List.contains_iff_mem, h.mem_successors]

theorem EdgeTables.mem_copySuccessors (h : g.EdgeTables) :
    b ∈ g.copySuccessors a ↔ g.CopyEdge a b := by
  have hall : ∀ k : EdgeKind, k ∈ EdgeKind.all := by
    intro k
    cases k <;> decide
  simp only [copySuccessors, List.mem_flatMap, List.mem_filter, hall, true_and, h.mem_successors,
    CopyEdge]

theorem At.lt_size {n : NodeId} {x : Node} (h : g.At n x) : n.index < g.nodes.size :=
  (Array.getElem?_eq_some_iff.1 h).1

theorem EdgeTables.lt_size (h : g.EdgeTables) (he : g.Edge a b k) :
    a.index < g.nodes.size ∧ b.index < g.nodes.size := by
  obtain ⟨e, he, rfl, rfl, -⟩ := he
  exact h.ends e he

theorem EdgeTables.lt_size_of_copyEdge (h : g.EdgeTables) (hc : g.CopyEdge a b) :
    a.index < g.nodes.size ∧ b.index < g.nodes.size := by
  obtain ⟨k, -, he⟩ := hc
  exact h.lt_size he

end Tables

/-- The graph with one more edge. -/
def withEdge (g : FlowGraph) (a b : NodeId) (k : EdgeKind) (stmt : Option StmtId) : FlowGraph :=
  let e : EdgeId := ⟨g.edges.size⟩
  { g with
    edges := g.edges.push ⟨a, b, k, stmt⟩
    outgoing := g.outgoing.insert (a, k) ((g.outgoing[(a, k)]?).getD [] ++ [e])
    incoming := g.incoming.insert (b, k) ((g.incoming[(b, k)]?).getD [] ++ [e])
    addressEdges := if k = .address then g.addressEdges.push e else g.addressEdges }

section WithEdge

variable {g : FlowGraph} {a b : NodeId} {k : EdgeKind} {stmt : Option StmtId}

theorem edge_withEdge {x y : NodeId} {j : EdgeKind} :
    (g.withEdge a b k stmt).Edge x y j ↔ g.Edge x y j ∨ (x = a ∧ y = b ∧ j = k) := by
  simp only [Edge, withEdge, Array.mem_push]
  constructor
  · rintro ⟨e, he | rfl, hx, hy, hj⟩
    · exact .inl ⟨e, he, hx, hy, hj⟩
    · exact .inr ⟨hx.symm, hy.symm, hj.symm⟩
  · rintro (⟨e, he, h⟩ | ⟨rfl, rfl, rfl⟩)
    · exact ⟨e, .inl he, h⟩
    · exact ⟨_, .inr rfl, rfl, rfl, rfl⟩

theorem edge?_withEdge {i : EdgeId} {e : FlowEdge} :
    (g.withEdge a b k stmt).edge? i = some e ↔
      g.edge? i = some e ∨ (i = ⟨g.edges.size⟩ ∧ e = ⟨a, b, k, stmt⟩) := by
  simp only [edge?, withEdge, Array.getElem?_push]
  split
  · next h =>
    have hi : i = ⟨g.edges.size⟩ := Ref.index_inj.1 h
    simp [hi, @eq_comm _ e]
  · next h =>
    have hi : i ≠ ⟨g.edges.size⟩ := fun hi => h (congrArg Ref.index hi)
    simp [hi]

/-- One more position in one entry of a table that lists positions by key. -/
private theorem mem_getD_insert {α : Type} [Ord α] [Std.TransOrd α] [Std.LawfulEqOrd α]
    [DecidableEq α] (t : Std.TreeMap α (List EdgeId)) (x y : α) (e i : EdgeId) :
    i ∈ ((t.insert x ((t[x]?).getD [] ++ [e]))[y]?).getD [] ↔
      i ∈ (t[y]?).getD [] ∨ (i = e ∧ x = y) := by
  rw [getElem?_insert]
  by_cases h : x = y
  · subst h
    simp
  · simp [h]

private theorem exists_edge?_withEdge {i : EdgeId} {P : FlowEdge → Prop} :
    (∃ e, (g.withEdge a b k stmt).edge? i = some e ∧ P e) ↔
      (∃ e, g.edge? i = some e ∧ P e) ∨ (i = ⟨g.edges.size⟩ ∧ P ⟨a, b, k, stmt⟩) := by
  simp only [edge?_withEdge, or_and_right, exists_or, and_assoc, exists_and_left, exists_eq_left]

theorem EdgeTables.withEdge (h : g.EdgeTables) (ha : a.index < g.nodes.size)
    (hb : b.index < g.nodes.size) : (g.withEdge a b k stmt).EdgeTables where
  outgoing n j i := by
    rw [exists_edge?_withEdge, ← h.outgoing, ← Prod.mk.injEq]
    exact mem_getD_insert ..
  incoming n j i := by
    rw [exists_edge?_withEdge, ← h.incoming, ← Prod.mk.injEq]
    exact mem_getD_insert ..
  addresses i := by
    rw [exists_edge?_withEdge, ← h.addresses]
    by_cases hk : k = .address
    · simp [FlowGraph.withEdge, hk]
    · simp [FlowGraph.withEdge, hk]
  ends e he := by
    rcases Array.mem_push.1 he with he | rfl
    · exact h.ends e he
    · exact ⟨ha, hb⟩

end WithEdge

section Reading

variable {α β : Type} {g : FlowGraph} {R : β → FlowGraph → Prop}

theorem ensures_node_bind {n : NodeId} {f : Node → Growing β}
    (h : ∀ a, g.At n a → Ensures (f a) g R) : Ensures (Growing.node n >>= f) g R := by
  refine ensures_bind (Q := fun a g' => g.At n a ∧ g' = g) (ensures_of_fault fun a g' hn => ?_) ?_
  · unfold Growing.node at hn
    split at hn
    · next ha =>
      cases hn
      exact ⟨node_eq_ok.1 ha, rfl⟩
    · cases hn
  · rintro a _ ⟨ha, rfl⟩
    exact h a ha

theorem ensures_lift_bind {x : Except Fault α} {f : α → Growing β}
    (h : ∀ a, x = .ok a → Ensures (f a) g R) : Ensures (liftM x >>= f) g R := by
  cases x with
  | error e => exact ensures_of_fault fun _ _ hf => nomatch hf
  | ok a => exact h a rfl

end Reading

/-- An edge is added between two nodes of the graph unless it is there already. -/
theorem ensures_addEdge {g : FlowGraph} {a b : NodeId} {k : EdgeKind} {stmt : Option StmtId} :
    Ensures (Growing.addEdge a b k stmt) g fun r g' =>
      (r = none ∧ g.hasEdge a b k = true ∧ g' = g) ∨
      (r = some ⟨g.edges.size⟩ ∧ g.hasEdge a b k = false ∧ a.index < g.nodes.size ∧
        b.index < g.nodes.size ∧ g' = g.withEdge a b k stmt) := by
  refine ensures_get_bind ?_
  split
  · next h => exact ensures_pure (.inl ⟨rfl, h, rfl⟩)
  · next h =>
    refine ensures_node_bind fun _ ha => ensures_node_bind fun _ hb => ?_
    exact ensures_modifyGet (.inr ⟨rfl, by simpa using h, ha.lt_size, hb.lt_size, rfl⟩)

end FlowGraph

end PointsTo
