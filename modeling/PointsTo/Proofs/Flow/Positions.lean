import PointsTo.Proofs.Flow.Changes
import PointsTo.Proofs.Scene.Scans

/-! Every position that a flow graph stores exists, and no step that adds to the graph comes upon one
that does not. Whatever it is given, it takes nothing away. -/
namespace PointsTo

section Refs

variable (P : Positions)

/-! What holds of every position that a node, an edge or a graph stores. -/

def Synthetic.Refs : Synthetic → Prop
  | .result site | .containerCopy site => P .site site
  | .parameter m _ | .receiver m => P .method m

def Location.Refs : Location → Prop
  | .value v => P .value v
  | .field object _ => P .node object
  | .fieldRef base _ => P .node base
  | .bound origin site => P .node origin ∧ P .site site
  | .synthetic object => object.Refs P
  | .temporary stmt => P .stmt stmt
  | .slot .. | .globalObject => True

structure PointerInfo.Refs (i : PointerInfo) : Prop where
  dynamicCalls : ∀ d ∈ i.dynamicCalls, P .site d.1 ∧ P .context d.2
  unknownCalls : ∀ d ∈ i.unknownCalls, P .site d.1 ∧ P .context d.2
  instanceCalls : ∀ d ∈ i.instanceCalls, P .site d.1 ∧ P .context d.2

structure FunctionInfo.Refs (f : FunctionInfo) : Prop where
  method : P .method f.method
  binding : ∀ b ∈ f.binding, P .site b.site ∧ P .context b.context
  receiver : ∀ n ∈ f.receiver, P .node n

def NodeKind.Refs : NodeKind → Prop
  | .var info | .receiver info | .globalObject info | .staticField info => info.Refs P
  | .fieldRef base _ => P .node base
  | .container _ element => ∀ n ∈ element, P .node n
  | .function info => info.Refs P
  | .objectField | .allocation _ | .slot | .other => True

structure Node.Refs (a : Node) : Prop where
  context : P .context a.context
  location : a.location.Refs P
  stmt : ∀ i ∈ a.stmt, P .stmt i
  kind : a.kind.Refs P
  fieldRefs : ∀ n ∈ a.fieldRefs, P .node n
  fields : ∀ f ∈ a.fields, P .node f.2

structure FlowEdge.Refs (e : FlowEdge) : Prop where
  source : P .node e.source
  target : P .node e.target
  stmt : ∀ i ∈ e.stmt, P .stmt i

/-- A table of edges by one of their ends. -/
def EdgeTableRefs (table : Std.TreeMap (NodeId × EdgeKind) (List EdgeId)) : Prop :=
  ∀ (n : NodeId) (kind : EdgeKind) es, table[(n, kind)]? = some es →
    P .node n ∧ ∀ e ∈ es, P .edge e

structure FlowGraph.Refs (g : FlowGraph) : Prop where
  nodes : ∀ a ∈ g.nodes, a.Refs P
  edges : ∀ e ∈ g.edges, e.Refs P
  interned : ∀ (c : ContextId) (l : Location) n, g.interned[(c, l)]? = some n →
    P .context c ∧ l.Refs P ∧ P .node n
  instances : ∀ (v : ValueId) nodes, g.instances[v]? = some nodes → ∀ (c : ContextId) n,
    nodes[c]? = some n → P .value v ∧ P .context c ∧ P .node n
  representatives : ∀ r ∈ g.representatives, P .value r.2
  outgoing : EdgeTableRefs P g.outgoing
  incoming : EdgeTableRefs P g.incoming
  addressEdges : ∀ e ∈ g.addressEdges, P .edge e

variable {P} {Q : Positions} (hPQ : ∀ t r, P t r → Q t r)

include hPQ

theorem Location.Refs.mono {l : Location} (h : l.Refs P) : l.Refs Q := by
  cases l with
  | synthetic object => cases object <;> exact hPQ _ _ h
  | bound origin site => exact ⟨hPQ _ _ h.1, hPQ _ _ h.2⟩
  | slot | globalObject => trivial
  | _ => exact hPQ _ _ h

theorem PointerInfo.Refs.mono {i : PointerInfo} (h : i.Refs P) : i.Refs Q where
  dynamicCalls d hd := (h.dynamicCalls d hd).imp (hPQ _ _) (hPQ _ _)
  unknownCalls d hd := (h.unknownCalls d hd).imp (hPQ _ _) (hPQ _ _)
  instanceCalls d hd := (h.instanceCalls d hd).imp (hPQ _ _) (hPQ _ _)

theorem FunctionInfo.Refs.mono {f : FunctionInfo} (h : f.Refs P) : f.Refs Q where
  method := hPQ _ _ h.method
  binding b hb := (h.binding b hb).imp (hPQ _ _) (hPQ _ _)
  receiver n hn := hPQ _ _ (h.receiver n hn)

theorem NodeKind.Refs.mono {k : NodeKind} (h : k.Refs P) : k.Refs Q := by
  cases k with
  | var | receiver | globalObject | staticField => exact PointerInfo.Refs.mono hPQ h
  | fieldRef => exact hPQ _ _ h
  | container => exact fun n hn => hPQ _ _ (h n hn)
  | function => exact FunctionInfo.Refs.mono hPQ h
  | _ => trivial

theorem Node.Refs.mono {a : Node} (h : a.Refs P) : a.Refs Q where
  context := hPQ _ _ h.context
  location := h.location.mono hPQ
  stmt i hi := hPQ _ _ (h.stmt i hi)
  kind := h.kind.mono hPQ
  fieldRefs n hn := hPQ _ _ (h.fieldRefs n hn)
  fields f hf := hPQ _ _ (h.fields f hf)

theorem FlowEdge.Refs.mono {e : FlowEdge} (h : e.Refs P) : e.Refs Q where
  source := hPQ _ _ h.source
  target := hPQ _ _ h.target
  stmt i hi := hPQ _ _ (h.stmt i hi)

theorem EdgeTableRefs.mono {table : Std.TreeMap (NodeId × EdgeKind) (List EdgeId)}
    (h : EdgeTableRefs P table) : EdgeTableRefs Q table := fun n kind es hes =>
  (h n kind es hes).imp (hPQ _ _) fun he e hmem => hPQ _ _ (he e hmem)

theorem FlowGraph.Refs.mono {g : FlowGraph} (h : g.Refs P) : g.Refs Q where
  nodes a ha := (h.nodes a ha).mono hPQ
  edges e he := (h.edges e he).mono hPQ
  interned c l n hn :=
    have hn := h.interned c l n hn
    ⟨hPQ _ _ hn.1, hn.2.1.mono hPQ, hPQ _ _ hn.2.2⟩
  instances v nodes hv c n hn :=
    have hn := h.instances v nodes hv c n hn
    ⟨hPQ _ _ hn.1, hPQ _ _ hn.2.1, hPQ _ _ hn.2.2⟩
  representatives r hr := hPQ _ _ (h.representatives r hr)
  outgoing := h.outgoing.mono hPQ
  incoming := h.incoming.mono hPQ
  addressEdges e he := hPQ _ _ (h.addressEdges e he)

end Refs

section Parts

variable {P : Positions} {a : Node}

theorem Node.Refs.pointer? (h : a.Refs P) : ∀ i ∈ a.pointer?, i.Refs P := by
  have hkind := h.kind
  unfold Node.pointer?
  split
  · next hk => rintro _ ⟨⟩; simpa [hk, NodeKind.Refs] using hkind
  · next hk => rintro _ ⟨⟩; simpa [hk, NodeKind.Refs] using hkind
  · next hk => rintro _ ⟨⟩; simpa [hk, NodeKind.Refs] using hkind
  · next hk => rintro _ ⟨⟩; simpa [hk, NodeKind.Refs] using hkind
  · nofun

theorem Node.Refs.function? (h : a.Refs P) : ∀ f ∈ a.function?, f.Refs P := by
  have hkind := h.kind
  unfold Node.function?
  split
  · next hk => rintro _ ⟨⟩; simpa [hk, NodeKind.Refs] using hkind
  · nofun

theorem Node.Refs.fieldRef? (h : a.Refs P) : ∀ r ∈ a.fieldRef?, P .node r.1 := by
  have hkind := h.kind
  unfold Node.fieldRef?
  split
  · next hk => rintro _ ⟨⟩; simpa [hk, NodeKind.Refs] using hkind
  · nofun

theorem Node.Refs.mapPointer (h : a.Refs P) {f : PointerInfo → PointerInfo}
    (hf : ∀ i : PointerInfo, i.Refs P → (f i).Refs P) : (a.mapPointer f).Refs P := by
  have hkind := h.kind
  unfold Node.mapPointer
  split
  all_goals first
    | exact h
    | next hk => exact { h with kind := hf _ (by simpa [hk, NodeKind.Refs] using hkind) }

theorem EdgeTableRefs.insert {table : Std.TreeMap (NodeId × EdgeKind) (List EdgeId)} {n : NodeId}
    {kind : EdgeKind} {e : EdgeId} (h : EdgeTableRefs P table) (hn : P .node n) (he : P .edge e) :
    EdgeTableRefs P (table.insert (n, kind) ((table[(n, kind)]?).getD [] ++ [e])) := by
  have hold : ∀ e ∈ (table[(n, kind)]?).getD [], P .edge e :=
    getD_of_forall (R := fun es => ∀ e ∈ es, P .edge e) (fun es hes => (h n kind es hes).2) nofun
  have hnew : ∀ e' ∈ (table[(n, kind)]?).getD [] ++ [e], P .edge e' :=
    List.forall_mem_append.2 ⟨hold, List.forall_mem_singleton.2 he⟩
  exact fun n' kind' => forall_insert_map (R := fun (x : NodeId × EdgeKind) es =>
    P .node x.1 ∧ ∀ e ∈ es, P .edge e) (fun x => h x.1 x.2) ⟨hn, hnew⟩ (n', kind')

theorem PointerInfo.refs_empty : PointerInfo.Refs P {} := ⟨nofun, nofun, nofun⟩

end Parts

namespace FlowGraph

/-- The sizes of all tables, given those apart from the graph. -/
def sizes (g : FlowGraph) (k : Table → Nat) : Table → Nat
  | .node => g.nodes.size
  | .edge => g.edges.size
  | t => k t

/-- Every position that the graph stores exists, and what stands for a place names it. -/
structure InRange (scene : Scene) (k : Table → Nat) (g : FlowGraph) : Prop
    extends g.Refs (scene.Within (g.sizes k)) where
  places : ∀ r ∈ g.representatives, scene.place? r.2 = .ok (some r.1)

/-- Nothing is taken away. -/
structure Widens (g g' : FlowGraph) : Prop where
  nodes : g.nodes.size ≤ g'.nodes.size
  edges : g.edges.size ≤ g'.edges.size
  addressEdges : g.addressEdges.size ≤ g'.addressEdges.size

variable {scene : Scene} {k : Table → Nat} {g g' : FlowGraph}

theorem Widens.refl (g : FlowGraph) : g.Widens g := ⟨Nat.le_refl _, Nat.le_refl _, Nat.le_refl _⟩

theorem Widens.trans {g'' : FlowGraph} (h : g.Widens g') (h' : g'.Widens g'') : g.Widens g'' :=
  ⟨h.nodes.trans h'.nodes, h.edges.trans h'.edges, h.addressEdges.trans h'.addressEdges⟩

theorem Widens.within (h : g.Widens g') (t : Table) (r : Ref t)
    (hr : scene.Within (g.sizes k) t r) : scene.Within (g'.sizes k) t r := by
  refine hr.mono fun t => ?_
  cases t with
  | node => exact h.nodes
  | edge => exact h.edges
  | _ => exact Nat.le_refl _

theorem inRange_empty : InRange scene k {} := by
  constructor
  · constructor <;> simp [EdgeTableRefs]
  · simp

/-- What adding to a graph keeps. It fails only if the scene is not well-formed. -/
def guard (scene : Scene) (k : Table → Nat) : Guard Fault FlowGraph where
  Holds g := 0 < k .context ∧ g.InRange scene k
  Later := Widens
  Fails _ g := ¬ scene.WellFormed ∧ 0 < k .context ∧ g.InRange scene k
  refl := .refl
  trans := .trans

/-- A node that exists. -/
def HasNode (g : FlowGraph) (n : NodeId) : Prop := n.index < g.nodes.size

theorem HasNode.mono {n : NodeId} (h : g.HasNode n) (hg : g.Widens g') : g'.HasNode n :=
  Nat.lt_of_lt_of_le h hg.nodes

/-- What is asked of a graph and of what is added to it. -/
structure Watch where
  /-- That what is taken for an object is one. -/
  Ordered : Prop
  /-- That all positions exist. -/
  Strict : Prop

/-- What adding to a graph keeps, also where it fails. -/
def watch (scene : Scene) (k : Table → Nat) (w : Watch) : Guard Fault FlowGraph :=
  ((growth scene).when w.Ordered).both (guard scene k) w.Strict

/-- A node that exists, if it has to. -/
def Sees (w : Watch) (g : FlowGraph) (n : NodeId) : Prop := w.Strict → g.HasNode n

/-- A node that is an object if it is one of an allocation, as far as this is asked for. -/
def Stands (w : Watch) (scene : Scene) (l : Location) (g : FlowGraph) (n : NodeId) : Prop :=
  (w.Ordered → l.IsObject scene → g.IsObject n) ∧ g.Sees w n

section Watch

variable {w : Watch} {n : NodeId}

theorem Sees.later (h : g.Sees w n) (hl : (watch scene k w).Later g g') : g'.Sees w n :=
  fun hstrict => (h hstrict).mono (hl.2 hstrict)

theorem Stands.later {l : Location} (h : g.Stands w scene l n) (hl : (watch scene k w).Later g g') :
    g'.Stands w scene l n :=
  ⟨fun hw hobject => (hl.1 hw).isObject (h.1 hw hobject), h.2.later hl⟩

theorem watch_step {V : Prop} (hg : (watch scene k w).Holds g) (h : w.Ordered → g.Change scene g')
    (hV : V) (hg' : w.Strict → g.InRange scene k → g.Widens g' ∧ g'.InRange scene k) :
    (watch scene k w).Holds g' ∧ (watch scene k w).Later g g' ∧ V := by
  have hg' := fun hstrict => hg' hstrict (hg.2 hstrict).2
  exact ⟨⟨fun hw => (h hw).ordered (hg.1 hw), fun hs => ⟨(hg.2 hs).1, (hg' hs).2⟩⟩,
    ⟨fun hw => .single (h hw), fun hs => (hg' hs).1⟩, hV⟩

end Watch

end FlowGraph

section Known

variable {P : Positions} {scene : Scene} {g : FlowGraph} {v : ValueId}

theorem Scene.WellFormed.nodesOf (h : scene.WellFormed) (hv : scene.Has .value v) :
    Answers (g.nodesOf scene v) fun _ => True := by
  have hknown : Answers (g.known scene .empty v) fun _ => True := by
    refine (h.place? hv).bind fun place? _ => ?_
    split <;> exact .pure trivial
  exact hknown.bind fun _ _ => .pure trivial

theorem FlowGraph.Refs.nodesOf (h : g.Refs P) {l : List (ContextId × NodeId)}
    (hl : g.nodesOf scene v = .ok l) : ∀ x ∈ l, P .node x.2 := by
  unfold FlowGraph.nodesOf at hl
  cases hknown : g.known scene .empty v with
  | error e => simp [hknown, bind, Except.bind] at hl
  | ok w =>
    rw [hknown] at hl
    cases hl
    intro x hx
    exact getD_of_forall (R := fun nodes => ∀ c n, nodes[c]? = some n → P .node n)
      (fun nodes hnodes c n hn => (h.instances w.2 nodes hnodes c n hn).2.2) (by simp) x.1 x.2
      (Std.TreeMap.mem_toList_iff_getElem?_eq_some.1 hx)

theorem Scene.WellFormed.nodeKind (h : scene.WellFormed) (hv : scene.Has .value v) :
    Answers (scene.nodeKind v) fun _ => True := by
  refine (h.globalProperty? hv).bind fun _ _ => ?_
  split
  · exact .pure trivial
  refine (h.value hv).bind fun a _ => ?_
  split <;> exact .pure trivial

end Known

namespace Growing
open FlowGraph

variable {scene : Scene} {k : Table → Nat} {w : Watch} {g : FlowGraph} {α β : Type} {c : ContextId}
  {v : ValueId} {stmt : Option StmtId} {n o : NodeId} {key : FieldKey} {W : FlowGraph → β → Prop}

theorem watch_lift_bind {x : Except Fault α} {Q : α → Prop} {f : α → Growing β}
    (hx : w.Strict → scene.WellFormed → Answers x Q)
    (hf : ∀ a, x = .ok a → (w.Strict → scene.WellFormed → Q a) →
      (watch scene k w).Safe g (f a) W) : (watch scene k w).Safe g (liftM x >>= f) W := by
  refine .bind (.of_answers (g := id) (C := w.Strict ∧ scene.WellFormed) (fun h => hx h.1 h.2)
    (by cases x <;> rfl) fun _ h hg => ⟨fun _ => trivial, fun hs => ⟨fun hp => h ⟨hs, hp⟩, hg.2 hs⟩⟩) ?_
  rintro _ a - ⟨rfl, ha, hq⟩
  exact hf a ha fun hs hp => hq ⟨hs, hp⟩

theorem watch_node (hn : g.Sees w n) : (watch scene k w).Safe g (node n) fun t a =>
    t = g ∧ g.At n a ∧ (w.Strict → a.Refs (scene.Within (g.sizes k))) := by
  intro hg
  cases ha : g.node n with
  | ok a =>
    simp only [node, ha]
    refine .ok hg ((watch scene k w).refl g) ⟨rfl, node_eq_ok.1 ha, fun hs => ?_⟩
    obtain ⟨b, hb, hmem⟩ := answers_fetch (hn hs)
    cases hb.symm.trans ha
    exact (hg.2 hs).2.nodes _ hmem
  | error e =>
    simp only [node, ha]
    refine .error ((watch scene k w).refl g) ⟨fun _ => trivial, fun hs => ?_⟩
    obtain ⟨b, hb, -⟩ := answers_fetch (hn hs)
    cases hb.symm.trans ha

theorem watch_node_bind {f : Node → Growing β} (hn : g.Sees w n)
    (hf : ∀ a : Node, g.At n a → (w.Strict → a.Refs (scene.Within (g.sizes k))) →
      (watch scene k w).Safe g (f a) W) : (watch scene k w).Safe g (node n >>= f) W := by
  refine .bind (watch_node hn) ?_
  rintro _ a - ⟨rfl, ha, hrefs⟩
  exact hf a ha hrefs

/-- A change of a node that keeps what counts. -/
theorem watch_update {f : Node → Node} (hkeeps : ∀ a, g.At n a → a.Keeps (f a))
    (hcalls : ∀ a : Node, a.KeepsCalls (f a)) (hf : w.Strict → ∀ a : Node,
      a.Refs (scene.Within (g.sizes k)) → (f a).Refs (scene.Within (g.sizes k))) :
    (watch scene k w).Safe g (update n f) fun t _ => t = g.modifyNode n f := by
  have hwidens : g.Widens (g.modifyNode n f) := ⟨by simp [modifyNode], Nat.le_refl _, Nat.le_refl _⟩
  refine .modify fun hg => watch_step hg (fun _ => .alter hkeeps hcalls) rfl fun hs hg =>
    ⟨hwidens, ?_⟩
  have hrefs := hg.toRefs.mono hwidens.within
  refine { hrefs with places := hg.places, nodes := fun a ha => ?_ }
  rcases mem_modify ha with ha | ⟨b, hb, rfl⟩
  · exact hrefs.nodes a ha
  · exact (hf hs b (hg.nodes b hb)).mono hwidens.within

theorem watch_pushRef (ho : g.Sees w o) : (watch scene k w).Runs g
    (update n fun a => { a with fieldRefs := a.fieldRefs.push o }) := by
  refine Guard.Safe.runs (watch_update (fun a _ => ?_) (fun _ => .of_pointer? rfl) fun hs a ha => ?_)
  · exact ⟨rfl, rfl, rfl, rfl, fun _ _ h => h, fun r hr => Array.mem_push_of_mem _ hr⟩
  · exact { ha with fieldRefs := Array.forall_mem_push.2 ⟨ho hs, ha.fieldRefs⟩ }

/-- The node of a location leaves the other nodes as they are. Its parts have to exist. -/
theorem watch_intern {l : Location} {kind : NodeKind}
    (hkind : l.IsObject scene → Node.isObject { context := c, location := l, stmt, kind } = true)
    (hc : w.Strict → c.index < k .context) (hl : w.Strict → l.Refs (scene.Within (g.sizes k)))
    (hstmt : ∀ i ∈ stmt, w.Strict → scene.Sure i)
    (hrefs : w.Strict → kind.Refs (scene.Within (g.sizes k)))
    (hfixed : l.Fixes kind.shape := by trivial) :
    (watch scene k w).Safe g (intern c l stmt kind) fun t n =>
      t.Stands w scene l n ∧ ∀ m a, g.At m a → t.At m a := by
  refine .modifyGet fun hg => ?_
  split
  · next n hn =>
    refine ⟨hg, (watch scene k w).refl g, ⟨fun hw => (hg.1 hw).objects c l n hn, fun hs => ?_⟩,
      fun _ _ h => h⟩
    exact ((hg.2 hs).2.interned c l n hn).2.2
  · next hnew =>
    let a : Node := { context := c, location := l, stmt, kind }
    have hwidens : g.Widens (g.withNode a) := ⟨by simp [withNode], Nat.le_refl _, Nat.le_refl _⟩
    have hat : (g.withNode a).At ⟨g.nodes.size⟩ a := at_withNode.2 (.inr ⟨rfl, rfl⟩)
    refine watch_step hg (fun _ => .node hnew hkind hfixed) ⟨⟨fun _ hobject => ⟨a, hat, hkind hobject⟩,
      fun _ => hat.lt_size⟩, fun m b hb => at_withNode.2 (.inl hb)⟩ fun hs hg => ⟨hwidens, ?_⟩
    have ha : a.Refs (scene.Within (g.sizes k)) :=
      ⟨hc hs, hl hs, fun i hi => hstmt i hi hs, hrefs hs, by simp [a], by simp [a]⟩
    have hold := hg.toRefs.mono hwidens.within
    refine { hold with places := hg.places, nodes := ?_, interned := ?_ }
    · exact Array.forall_mem_push.2 ⟨ha.mono hwidens.within, hold.nodes⟩
    · refine fun c' l' => forall_insert_map (R := fun (x : ContextId × Location) n => _)
        (fun x => hold.interned x.1 x.2) ?_ (c', l')
      exact ⟨hc hs, (hl hs).mono hwidens.within, hat.lt_size⟩

theorem watch_globalObject : (watch scene k w).Safe g globalObject (Sees w) :=
  .of_holds fun hg => .mono (watch_intern False.elim (fun hs => (hg.2 hs).1) (fun _ => trivial) nofun
    fun _ => PointerInfo.refs_empty) fun _ _ _ _ h => h.1.2

theorem watch_slot {space key : String} : (watch scene k w).Safe g (slot space key) (Sees w) :=
  .of_holds fun hg => .mono (watch_intern False.elim (fun hs => (hg.2 hs).1) (fun _ => trivial) nofun
    fun _ => trivial) fun _ _ _ _ h => h.1.2

theorem watch_temporary {i : StmtId} (hc : w.Strict → c.index < k .context)
    (hi : w.Strict → scene.Sure i) : (watch scene k w).Safe g (temporary c i) (Sees w) := by
  refine .mono (watch_intern False.elim hc hi ?_ fun _ => PointerInfo.refs_empty)
    fun _ _ _ _ h => h.1.2
  rintro _ ⟨⟩
  exact hi

theorem isObject_allocation {owner : String} {a : Node} (h : a.kind = allocation owner) :
    a.isObject = true := by
  unfold allocation at h
  split at h <;> simp [Node.isObject, h]

theorem refs_allocation {P : Positions} (owner : String) : (allocation owner).Refs P := by
  unfold allocation
  split
  · exact nofun
  · trivial

/-- A copy of a container has to be an array. -/
theorem watch_synthetic {object : Synthetic} {owner : Option String}
    (hcopy : ∀ i, object = .containerCopy i → owner = some Platform.arrayClass)
    (hc : w.Strict → c.index < k .context)
    (ho : w.Strict → object.Refs (scene.Within (g.sizes k))) :
    (watch scene k w).Safe g (synthetic c object owner) fun t n =>
      (w.Ordered → t.IsObject n) ∧ t.Sees w n := by
  refine .mono (watch_intern (fun _ => ?_) hc ho nofun (fun _ => ?_) ?_)
    fun _ _ _ _ h => ⟨fun hw => h.1.1 hw trivial, h.1.2⟩
  · cases owner with
    | none => rfl
    | some owner => exact isObject_allocation rfl
  · cases owner with
    | none => trivial
    | some owner => exact refs_allocation owner
  · cases object with
    | containerCopy i =>
      rw [hcopy i rfl]
      rfl
    | _ => trivial

theorem watch_boundFunction {m : MethodId} {b : Binding} {receiver : Option NodeId}
    (hn : g.Sees w n) (hm : w.Strict → scene.Sure m) (hsite : w.Strict → b.site.index < k .site)
    (hc : w.Strict → b.context.index < k .context) (hr : ∀ r ∈ receiver, g.Sees w r) :
    (watch scene k w).Safe g (boundFunction n m b receiver) fun t n =>
      (w.Ordered → t.IsObject n) ∧ t.Sees w n := by
  refine .mono (watch_intern (fun _ => rfl) hc (fun hs => ⟨hn hs, hsite hs⟩) nofun fun hs =>
    ⟨hm hs, ?_, fun r hmem => hr r hmem hs⟩) fun _ _ _ _ h => ⟨fun hw => h.1.1 hw trivial, h.1.2⟩
  rintro _ ⟨⟩
  exact ⟨hsite hs, hc hs⟩

theorem not_isObject_of_place? {place : Place} (h : scene.place? v = .ok (some place)) :
    ¬ (Location.value v).IsObject scene := by
  rintro ⟨a, ha, hallocation⟩
  cases a <;> simp [Value.isAllocation] at hallocation <;>
    simp [Scene.place?, Scene.globalProperty?, ha, bind, Except.bind, pure, Except.pure] at h

theorem isObject_of_nodeKind {a : Node} (h : scene.nodeKind v = .ok a.kind)
    (hv : (Location.value v).IsObject scene) : a.isObject = true := by
  obtain ⟨b, hb, hallocation⟩ := hv
  cases b <;> simp [Value.isAllocation] at hallocation <;>
    simp [Scene.nodeKind, Scene.globalProperty?, hb, bind, Except.bind, pure, Except.pure] at h
  · exact isObject_allocation h.symm
  all_goals simp [Node.isObject, ← h]

theorem refs_nodeKind {sizes : Table → Nat} {kind : NodeKind} (hv : scene.Sure v)
    (h : scene.nodeKind v = .ok kind) : kind.Refs (scene.Within sizes) := by
  simp only [Scene.nodeKind, bind, Except.bind] at h
  split at h
  · cases h
  split at h
  · cases h
    exact PointerInfo.refs_empty
  split at h
  · cases h
  next a ha =>
  split at h <;> cases h
  · split <;> exact PointerInfo.refs_empty
  · exact PointerInfo.refs_empty
  · exact refs_allocation _
  · rintro _ ⟨⟩
  · refine ⟨fun h => ?_, by rintro _ ⟨⟩, by rintro _ ⟨⟩⟩
    obtain ⟨b, hb, hrefs⟩ := h.value (hv h)
    cases hb.symm.trans ha
    exact hrefs.target _ rfl
  · trivial

section Values

variable (hc : w.Strict → c.index < k .context) (hv : w.Strict → scene.Sure v)
include hc hv

/-- What stands for a value names the same place. An object stands for itself. -/
theorem watch_settle : (watch scene k w).Safe g (settle scene c v) fun _ r =>
    ((Location.value v).IsObject scene → r.2 = v) ∧ (w.Strict → r.1.index < k .context) ∧
      (w.Strict → scene.Sure r.2) ∧ (w.Strict → scene.place? r.2 = scene.place? v) := by
  refine watch_lift_bind (fun hs h => h.place? (hv hs h)) fun p? hp _ => ?_
  cases p? with
  | none => exact .pure ⟨fun _ => rfl, hc, hv, fun _ => rfl⟩
  | some p =>
    refine .bind (V := fun _ u => (w.Strict → scene.Sure u) ∧
      (w.Strict → scene.place? u = scene.place? v)) (.modifyGet fun hg => ?_) fun t u _ hu => ?_
    · split
      · next u hu =>
        have hmem := mem_of_lookup hu
        exact ⟨hg, (watch scene k w).refl g, fun hs => (hg.2 hs).2.representatives _ hmem,
          fun hs => ((hg.2 hs).2.places _ hmem).trans hp.symm⟩
      · refine watch_step hg (fun _ => .index _ _) ⟨hv, fun _ => rfl⟩ fun hs hg =>
          ⟨⟨Nat.le_refl _, Nat.le_refl _, Nat.le_refl _⟩, { hg with representatives := ?_, places := ?_ }⟩
        · exact List.forall_mem_cons.2 ⟨hv hs, hg.representatives⟩
        · exact List.forall_mem_cons.2 ⟨hp, hg.places⟩
    · refine .of_holds fun hg => .pure ⟨fun h => absurd h (not_isObject_of_place? hp), fun hs => ?_, hu⟩
      split
      · exact (hg.2 hs).1
      · exact hc hs

variable (hstmt : ∀ i ∈ stmt, w.Strict → scene.Sure i)
include hstmt

theorem watch_introduce {kind : NodeKind}
    (hkind : (Location.value v).IsObject scene →
      Node.isObject { context := c, location := .value v, stmt, kind } = true)
    (hrefs : w.Strict → kind.Refs (scene.Within (g.sizes k))) :
    (watch scene k w).Safe g (introduce c v stmt kind) (Stands w scene (.value v)) := by
  refine .bind (watch_intern hkind hc hv hstmt hrefs) fun g₁ n _ hn => ?_
  extract_lets finish
  have hfinish : ∀ g₂ : FlowGraph, g₂.Stands w scene (.value v) n →
      (watch scene k w).Safe g₂ (finish ()) (Stands w scene (.value v)) := by
    intro g₂ hn
    refine .next (V := fun _ _ => True) (.modify fun hg => watch_step hg (fun _ => .index _ _) trivial
      fun hs hg => ⟨⟨Nat.le_refl _, Nat.le_refl _, Nat.le_refl _⟩,
        { hg with instances := forall_insert_map hg.instances ?_ }⟩) fun t _ hl => .pure (hn.later hl)
    refine forall_insert_map ?_ ⟨hv hs, hc hs, hn.2 hs⟩
    exact getD_of_forall (R := fun nodes => ∀ d x, nodes[d]? = some x → _)
      (hg.instances v) (by simp)
  split
  · exact .next (watch_pushRef hn.1.2) fun g₂ _ hl => hfinish g₂ (hn.1.later hl)
  · exact hfinish g₁ hn.1

/-- The fuel suffices for the nesting of the value. -/
theorem watch_valueWithin {fuel : Nat}
    (hfuel : w.Strict → scene.WellFormed → scene.nesting v < fuel) :
    (watch scene k w).Safe g (valueWithin scene fuel c v stmt) (Stands w scene (.value v)) := by
  induction fuel generalizing g c v with
  | zero =>
    refine .throw fun hg => ⟨fun _ => trivial, fun hs => ⟨fun h => ?_, hg.2 hs⟩⟩
    exact absurd (hfuel hs h) (Nat.not_lt_zero _)
  | succ fuel ih =>
    rw [valueWithin_succ]
    refine watch_lift_bind (fun hs h => h.value (hv hs h)) fun a ha _ => ?_
    split
    · next hglobal =>
      refine watch_globalObject.mono fun _ _ _ _ hn => ⟨fun _ => ?_, hn⟩
      rintro ⟨b, hb, hallocation⟩
      cases Except.ok.inj (ha.symm.trans hb)
      cases a <;> simp [Value.isAllocation, Value.isGlobalObject, Value.localName?] at *
    refine .bind (watch_settle hc hv) ?_
    rintro g₁ ⟨d, u⟩ - ⟨hsame, hd, hu, hplace⟩
    dsimp only at hsame
    -- what stands for the value is an object if the value is
    refine Guard.Safe.mono (V := Stands w scene (.value u)) (.get_bind ?_) fun t n _ _ hn =>
      ⟨fun hw hobject => hn.1 hw (hsame hobject ▸ hobject), hn.2⟩
    split
    · next n hn =>
      exact .of_holds fun hg => .pure ⟨fun hw => (hg.1 hw).objects d _ n hn,
        fun hs => ((hg.2 hs).2.interned d (.value u) n hn).2.2⟩
    refine watch_lift_bind (fun hs h => h.place? (hu hs h)) fun place? hp _ => ?_
    split
    · next base key _ =>
      -- what stands for the value has the same base, which nests less deeply
      have hop : w.Strict → scene.WellFormed → scene.Operand v base := by
        intro hs h
        obtain ⟨p?, hp?, hpart⟩ := h.place? (hv hs h)
        rw [← hplace hs, hp] at hp?
        cases hp?
        exact hpart base key rfl
      refine .bind (ih hd (fun hs h => h.has_of_operand (hop hs h)) fun hs h => ?_) fun g₂ b _ hb =>
        watch_introduce hd hu hstmt (fun h => absurd h (not_isObject_of_place? hp)) hb.2
      have := h.nesting_lt (hop hs h)
      have := hfuel hs h
      omega
    · exact watch_lift_bind (fun hs h => h.nodeKind (hu hs h)) fun kind hkind _ =>
        watch_introduce hd hu hstmt (isObject_of_nodeKind hkind) fun hs => refs_nodeKind (hu hs) hkind

/-- The node of an allocation is an object. -/
theorem watch_value :
    (watch scene k w).Safe g (value scene c v stmt) (Stands w scene (.value v)) :=
  watch_valueWithin hc hv hstmt fun _ _ => Nat.lt_succ_of_le (scene.nesting_le v)

end Values

/-- A new field is listed where none was. -/
theorem watch_objectField (ho : g.Sees w o) :
    (watch scene k w).Safe g (objectField o key) (Sees w) := by
  refine watch_node_bind ho fun a ha hrefs => ?_
  split
  · next n hn => exact .pure fun hs => (hrefs hs).fields _ (mem_of_lookup hn)
  · next hnone =>
    refine .bind (watch_intern False.elim (fun hs => (hrefs hs).context) ho nofun fun _ => trivial)
      fun g₁ n _ hn => ?_
    refine .next (watch_update (fun b hb => ?_) (fun _ => .of_pointer? rfl) fun hs b hb => ?_)
      fun g₂ _ hl => .pure (hn.1.2.later hl)
    · cases Option.some.inj (hb.symm.trans (hn.2 o a ha))
      exact ⟨rfl, rfl, rfl, rfl, fun _ _ => lookup_cons_of_eq_some hnone, fun _ hr => hr⟩
    · exact { hb with fields := List.forall_mem_cons.2 ⟨hn.1.2 hs, hb.fields⟩ }

theorem watch_fieldOf {r : NodeId} (hr : g.Sees w r) (ho : g.Sees w o) :
    (watch scene k w).Safe g (fieldOf r o) fun t x? => ∀ x ∈ x?, t.Sees w x := by
  refine watch_node_bind hr fun a _ _ => ?_
  split
  · refine .bind (watch_objectField ho) fun t x _ hx => .pure ?_
    rintro _ ⟨⟩
    exact hx
  · exact .pure nofun

theorem watch_element (ho : g.Sees w o) : (watch scene k w).Safe g (element o) (Sees w) := by
  refine .bind (watch_objectField ho) fun g₁ n _ hn => .next (watch_update (fun a _ => ?_)
    (fun a => .of_pointer? ?_) fun hs a ha => ?_) fun g₂ _ hl => .pure (hn.later hl)
  · split
    · next hk => exact ⟨rfl, rfl, rfl, by simp [hk, NodeKind.shape], fun _ _ h => h, fun _ h => h⟩
    · exact .refl a
  · split
    · next hk => simp [Node.pointer?, hk]
    · rfl
  · split
    · refine { ha with kind := ?_ }
      rintro _ ⟨⟩
      exact hn hs
    · exact ha

theorem watch_fieldRef (hn : g.Sees w n) :
    (watch scene k w).Safe g (fieldRef n key) (Sees w) := by
  refine watch_node_bind hn fun a _ hrefs => .get_bind ?_
  split
  · next r hr => exact .of_holds fun hg => .pure fun hs => ((hg.2 hs).2.interned _ _ r hr).2.2
  · refine .bind (watch_intern False.elim (fun hs => (hrefs hs).context) hn nofun hn)
      fun g₁ r _ hr => .next (watch_pushRef hr.1.2) fun g₂ _ hl => .pure (hr.1.2.later hl)

/-- An address edge has to come from an object. -/
theorem watch_addEdge {a b : NodeId} {kind : EdgeKind}
    (hkind : w.Ordered → kind = .address → g.IsObject a) (ha : g.Sees w a) (hb : g.Sees w b)
    (hstmt : ∀ i ∈ stmt, w.Strict → scene.Sure i) :
    (watch scene k w).Runs g (addEdge a b kind stmt) := by
  refine .get_bind ?_
  split
  · exact .pure trivial
  refine watch_node_bind ha fun _ _ _ => watch_node_bind hb fun _ _ _ => .modifyGet fun hg => ?_
  have hwidens : g.Widens (g.withEdge a b kind stmt) := by
    refine ⟨Nat.le_refl _, by simp [withEdge], ?_⟩
    unfold withEdge
    split <;> simp
  refine watch_step hg (fun hw => .edge (hkind hw)) trivial fun hs hg => ⟨hwidens, ?_⟩
  have hrefs := hg.toRefs.mono hwidens.within
  have hnew : scene.Within ((g.withEdge a b kind stmt).sizes k) .edge ⟨g.edges.size⟩ := by
    simp [Scene.Within, sizes, withEdge]
  refine { hrefs with
    places := hg.places
    edges := Array.forall_mem_push.2 ⟨⟨ha hs, hb hs, fun i hi => hstmt i hi hs⟩, hrefs.edges⟩
    outgoing := hrefs.outgoing.insert (ha hs) hnew
    incoming := hrefs.incoming.insert (hb hs) hnew
    addressEdges := ?_ }
  dsimp only
  split
  · exact Array.forall_mem_push.2 ⟨hnew, hrefs.addressEdges⟩
  · exact hrefs.addressEdges

end Growing

end PointsTo
