import Mathlib.Data.List.Nodup
import PointsTo.Proofs.Flow.Growing
import PointsTo.Proofs.Scene.Trails

/-! The tables of a flow graph represent its nodes and edges exactly, whatever operations it was made
with. -/
namespace PointsTo

/-- A position that its table does not have. -/
def Fault.IsDangling (e : Fault) : Prop := ∃ table index, e = .dangling table index

namespace Scene

/-- `v` refers to a part of whatever `base` points to. -/
def PartOf (s : Scene) (v base : ValueId) : Prop := ∃ key, s.place? v = .ok (some (.part base key))

/-- No value is built from itself. -/
def Acyclic (s : Scene) : Prop := ∀ v, ¬ Relation.TransGen s.PartOf v v

theorem acyclic_of_lt {s : Scene} (h : ∀ v base, s.PartOf v base → base.index < v.index) :
    s.Acyclic := by
  have hlt : ∀ v w, Relation.TransGen s.PartOf v w → w.index < v.index := by
    intro v w hvw
    induction hvw with
    | single hw => exact h _ _ hw
    | tail _ hw ih => exact Nat.lt_trans (h _ _ hw) ih
  exact fun v hv => Nat.lt_irrefl _ (hlt v v hv)

/-- `w` is looked up on behalf of `base`: it names the same place as a value that `base` is built
from. -/
def Beneath (s : Scene) (base w : ValueId) : Prop :=
  ∃ u, Relation.ReflTransGen s.PartOf base u ∧
    (u = w ∨ ∃ p, s.place? u = .ok (some p) ∧ s.place? w = .ok (some p))

theorem entails_beneath (s : Scene) (base : ValueId) :
    s.Entails fun _ l => ∀ w, l = .value w → s.Beneath base w where
  settled c v k hv hk w hw := by
    cases hw
    obtain ⟨u, hu, heq⟩ := hv v rfl
    rcases hk with rfl | ⟨p, hp, hp', -⟩
    · exact ⟨u, hu, heq⟩
    · rcases heq with rfl | ⟨q, hq, hq'⟩
      · exact ⟨u, hu, .inr ⟨p, hp, hp'⟩⟩
      · cases hp.symm.trans hq'
        exact ⟨u, hu, .inr ⟨p, hq, hp'⟩⟩
  parts c v base' key hv hp w hw := by
    cases hw
    obtain ⟨u, hu, heq⟩ := hv v rfl
    have hpart : s.PartOf u base' := by
      rcases heq with rfl | ⟨q, hq, hq'⟩
      · exact ⟨key, hp⟩
      · cases hp.symm.trans hq'
        exact ⟨key, hq⟩
    exact ⟨base', hu.tail hpart, .inl rfl⟩
  globals _ _ _ _ _ _ w hw := by cases hw

/-- The base of a value is made without it. -/
theorem Acyclic.not_beneath {s : Scene} (h : s.Acyclic) {v base : ValueId}
    (hv : s.PartOf v base) : ¬ s.Beneath base v := by
  rintro ⟨u, hu, heq⟩
  have hpart : s.PartOf u base := by
    rcases heq with rfl | ⟨p, hp, hp'⟩
    · exact hv
    · obtain ⟨key, hkey⟩ := hv
      exact ⟨key, by rw [hp, ← hp', hkey]⟩
  exact h base (.tail' hu hpart)

end Scene

section Yields

variable {σ α β : Type} {m : EStateM Fault σ α} {f : α → EStateM Fault σ β} {s : σ}
  {Q : α → σ → Prop} {R : β → σ → Prop}

/-- The computation ends with `Q`, unless it comes upon a position that its table does not have. -/
def Yields (m : EStateM Fault σ α) (s : σ) (Q : α → σ → Prop) : Prop :=
  (∀ a s', m s = .ok a s' → Q a s') ∧ ∀ e s', m s = .error e s' → e.IsDangling

theorem Yields.mono {Q' : α → σ → Prop} (h : Yields m s Q) (hQ : ∀ a s', Q a s' → Q' a s') :
    Yields m s Q' :=
  ⟨fun a s' hm => hQ a s' (h.1 a s' hm), h.2⟩

/-- What a computation ensures holds in addition. -/
theorem Yields.and {P : α → σ → Prop} (h : Yields m s Q) (hP : Ensures m s P) :
    Yields m s fun a s' => Q a s' ∧ P a s' :=
  ⟨fun a s' hm => ⟨h.1 a s' hm, hP.1 hm⟩, h.2⟩

theorem yields_bind (hm : Yields m s Q) (hf : ∀ a s', Q a s' → Yields (f a) s' R) :
    Yields (m >>= f) s R := by
  simp only [Yields, Bind.bind, EStateM.bind]
  cases h : m s with
  | ok a s₁ => exact hf a s₁ (hm.1 a s₁ h)
  | error e s₁ =>
    refine ⟨nofun, fun e' s' he => ?_⟩
    cases he
    exact hm.2 e s₁ h

theorem yields_pure {a : α} (h : Q a s) : Yields (pure a : EStateM Fault σ α) s Q := by
  refine ⟨fun b s' hb => ?_, nofun⟩
  cases hb
  exact h

theorem yields_get_bind {f : σ → EStateM Fault σ β} (h : Yields (f s) s R) :
    Yields (get >>= f) s R :=
  h

theorem yields_modifyGet {g : σ → α × σ} (h : Q (g s).1 (g s).2) :
    Yields (modifyGet g : EStateM Fault σ α) s Q := by
  refine ⟨fun b s' hb => ?_, nofun⟩
  cases hb
  exact h

theorem yields_modify {g : σ → σ} {Q : Unit → σ → Prop} (h : Q () (g s)) :
    Yields (modify g : EStateM Fault σ Unit) s Q :=
  yields_modifyGet h

theorem yields_modify_bind {g : σ → σ} {f : Unit → EStateM Fault σ β} (h : Yields (f ()) (g s) R) :
    Yields (modify g >>= f) s R :=
  h

end Yields

namespace Scene

variable {s : Scene} {v : ValueId} {e : Fault}

private theorem bind_eq_error {α β : Type} {x : Except Fault α} {f : α → Except Fault β} :
    (x >>= f) = .error e ↔ x = .error e ∨ ∃ a, x = .ok a ∧ f a = .error e := by
  cases x <;> simp [bind, Except.bind]

theorem isDangling_of_value (h : s.value v = .error e) : e.IsDangling := by
  unfold value Ref.fetch at h
  split at h
  · cases h
  · cases h
    exact ⟨_, _, rfl⟩

theorem isDangling_of_globalProperty? (h : s.globalProperty? v = .error e) : e.IsDangling := by
  rcases bind_eq_error.1 h with h | ⟨a, -, h⟩
  · exact isDangling_of_value h
  split at h
  · rcases bind_eq_error.1 h with h | ⟨b, -, h⟩
    · exact isDangling_of_value h
    · split at h <;> cases h
  · cases h

theorem isDangling_of_place? (h : s.place? v = .error e) : e.IsDangling := by
  rcases bind_eq_error.1 h with h | ⟨name?, -, h⟩
  · exact isDangling_of_globalProperty? h
  split at h
  · cases h
  rcases bind_eq_error.1 h with h | ⟨a, -, h⟩
  · exact isDangling_of_value h
  · split at h <;> cases h

theorem isDangling_of_nodeKind (h : s.nodeKind v = .error e) : e.IsDangling := by
  rcases bind_eq_error.1 h with h | ⟨name?, -, h⟩
  · exact isDangling_of_globalProperty? h
  split at h
  · cases h
  rcases bind_eq_error.1 h with h | ⟨a, -, h⟩
  · exact isDangling_of_value h
  · split at h <;> cases h

/-- A value that refers to something is in the table of values. -/
theorem PartOf.lt_size {base : ValueId} (h : s.PartOf v base) : v.index < s.values.size := by
  obtain ⟨key, hkey⟩ := h
  unfold place? globalProperty? at hkey
  cases hv : s.value v with
  | error e => simp [hv, bind, Except.bind] at hkey
  | ok a => exact (Array.getElem?_eq_some_iff.1 (Ref.fetch_eq_ok_iff.1 hv)).1

end Scene

namespace FlowGraph

variable {s : Scene} {g g' : FlowGraph} {a b o : NodeId} {k : EdgeKind} {v : ValueId}

section Yields

variable {α β : Type} {R : β → FlowGraph → Prop}

theorem isDangling_of_node {n : NodeId} {e : Fault} (h : g.node n = .error e) : e.IsDangling := by
  unfold node Ref.fetch at h
  split at h
  · cases h
  · cases h
    exact ⟨_, _, rfl⟩

theorem yields_node_bind {n : NodeId} {f : Node → Growing β}
    (h : ∀ a, g.At n a → Yields (f a) g R) : Yields (Growing.node n >>= f) g R := by
  simp only [Yields, Bind.bind, EStateM.bind, Growing.node]
  cases hn : g.node n with
  | ok a => exact h a (node_eq_ok.1 hn)
  | error e =>
    refine ⟨nofun, fun e' g' he => ?_⟩
    cases he
    exact isDangling_of_node hn

theorem yields_lift_bind {x : Except Fault α} {f : α → Growing β}
    (hx : ∀ e, x = .error e → e.IsDangling) (h : ∀ a, x = .ok a → Yields (f a) g R) :
    Yields (liftM x >>= f) g R := by
  cases x with
  | ok a => exact h a rfl
  | error e =>
    refine ⟨nofun, fun e' g' he => ?_⟩
    cases he
    exact hx e rfl

end Yields

/-- The positions of the edges that satisfy `q`, in the order in which they were added. -/
def edgesWhere (g : FlowGraph) (q : FlowEdge → Bool) : List EdgeId :=
  g.edges.toList.zipIdx.filterMap fun (e, i) => if q e then some ⟨i⟩ else none

theorem edgesWhere_withEdge {stmt : Option StmtId} (q : FlowEdge → Bool) :
    (g.withEdge a b k stmt).edgesWhere q =
      g.edgesWhere q ++ if q ⟨a, b, k, stmt⟩ then [⟨g.edges.size⟩] else [] := by
  simp only [edgesWhere, withEdge, Array.toList_push, List.zipIdx_append, List.filterMap_append]
  congr 1
  split <;> simp_all

/-- What the tables of a graph list, they list once and in order. -/
structure Orderly (g : FlowGraph) : Prop where
  fieldRefs : ∀ n a, g.At n a → a.fieldRefs.toList.Nodup
  /-- A container remembers its own element slot. -/
  elements : ∀ n a x, g.At n a → a.element? = some x → a.fields.lookup .element = some x
  unique : ∀ i j e e', g.edge? i = some e → g.edge? j = some e' → e'.source = e.source →
    e'.target = e.target → e'.kind = e.kind → i = j
  outgoing : ∀ n k, (g.outgoing[(n, k)]?).getD [] =
    g.edgesWhere fun e => e.source = n ∧ e.kind = k
  incoming : ∀ n k, (g.incoming[(n, k)]?).getD [] =
    g.edgesWhere fun e => e.target = n ∧ e.kind = k
  addresses : g.addressEdges.toList = g.edgesWhere (·.kind = .address)

theorem orderly_empty : Orderly {} := by
  constructor <;> simp [At, edge?, edgesWhere]

/-- Only the nodes and the edges matter. -/
theorem Orderly.frame (h : g.Orderly) (hn : g'.nodes = g.nodes) (he : g'.edges = g.edges)
    (ho : g'.outgoing = g.outgoing) (hi : g'.incoming = g.incoming)
    (ha : g'.addressEdges = g.addressEdges) : g'.Orderly := by
  obtain ⟨h₁, h₂, h₃, h₄, h₅, h₆⟩ := h
  constructor <;> simpa only [At, edge?, edgesWhere, hn, he, ho, hi, ha]

/-- A change of the nodes. -/
theorem Orderly.nodes (h : g.Orderly) (he : g'.edges = g.edges) (ho : g'.outgoing = g.outgoing)
    (hi : g'.incoming = g.incoming) (ha : g'.addressEdges = g.addressEdges)
    (hnodes : ∀ n a, g'.At n a → a.fieldRefs.toList.Nodup ∧
      ∀ x, a.element? = some x → a.fields.lookup .element = some x) : g'.Orderly where
  fieldRefs n a hn := (hnodes n a hn).1
  elements n a x hn hx := (hnodes n a hn).2 x hx
  unique := by simpa only [edge?, he] using h.unique
  outgoing := by simpa only [edgesWhere, he, ho] using h.outgoing
  incoming := by simpa only [edgesWhere, he, hi] using h.incoming
  addresses := by simpa only [edgesWhere, he, ha] using h.addresses

theorem Orderly.withNode (h : g.Orderly) {a : Node} (hrefs : a.fieldRefs = #[])
    (helement : a.element? = none) : (g.withNode a).Orderly := by
  refine h.nodes rfl rfl rfl rfl fun n b hb => ?_
  rcases at_withNode.1 hb with hb | ⟨-, rfl⟩
  · exact ⟨h.fieldRefs n b hb, fun x => h.elements n b x hb⟩
  · simp [hrefs, helement]

theorem Orderly.modifyNode (h : g.Orderly) {m : NodeId} {f : Node → Node}
    (hf : ∀ a, g.At m a → (f a).fieldRefs.toList.Nodup ∧
      ∀ x, (f a).element? = some x → (f a).fields.lookup .element = some x) :
    (g.modifyNode m f).Orderly := by
  refine h.nodes rfl rfl rfl rfl fun n b hb => ?_
  obtain ⟨a, ha, rfl⟩ := at_modifyNode.1 hb
  split
  · next hn => exact hf a (hn ▸ ha)
  · exact ⟨h.fieldRefs n a ha, fun x => h.elements n a x ha⟩

/-- One more position in one entry of a table that lists positions by key. -/
private theorem getD_insert_append {α : Type} [Ord α] [Std.TransOrd α] [Std.LawfulEqOrd α]
    [DecidableEq α] (t : Std.TreeMap α (List EdgeId)) (x y : α) (e : EdgeId) :
    ((t.insert x ((t[x]?).getD [] ++ [e]))[y]?).getD [] =
      (t[y]?).getD [] ++ if x = y then [e] else [] := by
  rw [getElem?_insert]
  by_cases h : x = y
  · simp [h]
  · simp [h]

theorem Orderly.withEdge (h : g.Orderly) (ht : g.EdgeTables) {stmt : Option StmtId}
    (hnew : g.hasEdge a b k = false) : (g.withEdge a b k stmt).Orderly where
  fieldRefs := h.fieldRefs
  elements := h.elements
  unique := by
    have hno : ∀ i e, g.edge? i = some e → ¬ (e.source = a ∧ e.target = b ∧ e.kind = k) := by
      rintro i e he hends
      have hedge : g.Edge a b k := ⟨e, Array.mem_of_getElem? he, hends⟩
      rw [← ht.hasEdge_iff, hnew] at hedge
      cases hedge
    intro i j e e' hi hj hsource htarget hkind
    rcases edge?_withEdge.1 hi with hi | ⟨rfl, rfl⟩
    · rcases edge?_withEdge.1 hj with hj | ⟨rfl, rfl⟩
      · exact h.unique i j e e' hi hj hsource htarget hkind
      · exact absurd ⟨hsource.symm, htarget.symm, hkind.symm⟩ (hno i e hi)
    · rcases edge?_withEdge.1 hj with hj | ⟨rfl, rfl⟩
      · exact absurd ⟨hsource, htarget, hkind⟩ (hno j e' hj)
      · rfl
  outgoing n j := by
    rw [edgesWhere_withEdge, ← h.outgoing]
    refine (getD_insert_append ..).trans ?_
    simp
  incoming n j := by
    rw [edgesWhere_withEdge, ← h.incoming]
    refine (getD_insert_append ..).trans ?_
    simp
  addresses := by
    rw [edgesWhere_withEdge, ← h.addresses]
    by_cases hk : k = .address
    · simp [FlowGraph.withEdge, hk]
    · simp [FlowGraph.withEdge, hk]

section Nodes

variable {c : ContextId} {l : Location} {stmt : Option StmtId} {kind : NodeKind}

theorem yields_intern (h : g.Orderly) (hkind : ∀ k x, kind ≠ .container k (some x)) :
    Yields (Growing.intern c l stmt kind) g fun _ g' => g'.Orderly := by
  refine yields_modifyGet ?_
  split
  · exact h
  · refine h.withNode (a := { context := c, location := l, stmt, kind }) rfl ?_
    unfold Node.element?
    split
    · next k x hk =>
      cases x with
      | none => rfl
      | some x => exact absurd hk (hkind k x)
    · rfl

/-- A new field reference is not among those that its base lists. -/
theorem Orderly.listFieldRef (h : g.Orderly) (hc : g.Consistent s) {a : Node} {b : NodeId}
    {key : FieldKey} (hrefs : a.fieldRefs = #[]) (hkind : a.kind = .fieldRef b key) :
    ((g.withNode a).modifyNode b fun x =>
      { x with fieldRefs := x.fieldRefs.push ⟨g.nodes.size⟩ }).Orderly := by
  have helement : a.element? = none := by simp [Node.element?, hkind]
  refine (h.withNode hrefs helement).modifyNode fun x hx => ?_
  refine ⟨?_, fun y => (h.withNode hrefs helement).elements b x y hx⟩
  rw [Array.toList_push, List.nodup_append]
  refine ⟨(h.withNode hrefs helement).fieldRefs b x hx, by simp, fun r hr r' hr' => ?_⟩
  cases List.mem_singleton.1 hr'
  rintro rfl
  rcases at_withNode.1 hx with hx | ⟨rfl, rfl⟩
  · obtain ⟨key', y, hy, -⟩ := (hc.fieldRefs b x _ hx).1 (Array.mem_toList_iff.1 hr)
    exact Nat.lt_irrefl _ hy.lt_size
  · simp [hrefs] at hr

theorem shape_element (h : kind.shape = kind) (k : Container) (x : NodeId) :
    kind ≠ .container k (some x) := by
  rintro rfl
  simp [NodeKind.shape] at h

/-- The node of a value that has none yet. -/
theorem yields_introduce (h : g.Orderly) (hc : g.Consistent s) {v : ValueId}
    (hnew : g.interned[(c, Location.value v)]? = none) (hbare : kind.shape = kind) :
    Yields (Growing.introduce c v stmt kind) g fun _ g' => g'.Orderly := by
  have hintern : Yields (Growing.intern c (.value v) stmt kind) g fun _ g' => g'.Orderly :=
    yields_intern h (shape_element hbare)
  refine yields_bind (hintern.and ensures_intern) ?_
  rintro n g₁ ⟨h₁, ⟨hn, -⟩ | ⟨-, rfl, rfl⟩⟩
  · rw [hnew] at hn
    cases hn
  · extract_lets finish
    have hfinish : ∀ g₂ : FlowGraph, g₂.Orderly → Yields (finish ()) g₂ fun _ g' => g'.Orderly :=
      fun g₂ h₂ => yields_modify_bind (yields_pure (h₂.frame rfl rfl rfl rfl rfl))
    split
    · exact yields_modify_bind (hfinish _ (h.listFieldRef hc rfl rfl))
    · exact hfinish _ h₁

end Nodes

theorem yields_settle (h : g.Orderly) {c : ContextId} :
    Yields (Growing.settle s c v) g fun _ g' => g'.Orderly := by
  refine yields_lift_bind (fun e => Scene.isDangling_of_place?) fun p? _ => ?_
  cases p? with
  | none => exact yields_pure h
  | some p =>
    refine yields_bind (Q := fun _ g' => g'.Orderly) (yields_modifyGet ?_)
      fun _ _ h₁ => yields_pure h₁
    split
    · exact h
    · exact h.frame rfl rfl rfl rfl rfl

/-- The fuel suffices for a chain of bases without repetition. -/
theorem yields_valueWithin (hs : s.Acyclic) {fuel : Nat} {c : ContextId} {stmt : Option StmtId}
    (path : List ValueId) (h : g.Orderly) (hc : g.Consistent s) (hpath : path.Nodup)
    (habove : ∀ w ∈ path, w.index < s.values.size ∧ Relation.TransGen s.PartOf w v)
    (hfuel : s.values.size < path.length + fuel) :
    Yields (Growing.valueWithin s fuel c v stmt) g fun _ g' => g'.Orderly := by
  induction fuel generalizing g c v path with
  | zero =>
    have hle := Ref.length_le_of_nodup hpath fun w hw => (habove w hw).1
    omega
  | succ fuel ih =>
    rw [Growing.valueWithin_succ]
    refine yields_lift_bind (fun e => Scene.isDangling_of_value) fun a ha => ?_
    split
    · exact yields_intern h (by simp)
    refine yields_bind ((yields_settle h).and (ensures_settle hc)) ?_
    rintro ⟨c', v'⟩ g₁ ⟨h₁, hg₁, -, -, -, hsettles⟩
    refine yields_get_bind ?_
    split
    · exact yields_pure h₁
    next hnew =>
    have hc₁ := hg₁.consistent
    refine yields_lift_bind (fun e => Scene.isDangling_of_place?) fun p? hp => ?_
    split
    · next base key =>
      -- a part is made after its base, which is made without it
      have hv : s.PartOf v base := by
        rcases hsettles with heq | ⟨p, hpv, hpv', -⟩
        · cases heq
          exact ⟨key, hp⟩
        · cases hp.symm.trans hpv'
          exact ⟨key, hpv⟩
      have hbase := ih (c := c') (v := base) (v :: path) h₁ hc₁
        (List.nodup_cons.2 ⟨fun hv => hs v (habove v hv).2, hpath⟩) ?_ (by simp; omega)
      · refine yields_bind (hbase.and (ensures_valueWithin hc₁)) ?_
        rintro b g₂ ⟨h₂, hg₂, -, hinterns⟩
        refine yields_introduce h₂ hg₂.consistent ?_ rfl
        rw [Option.eq_none_iff_forall_ne_some]
        intro n hn
        have hin := hinterns _ (s.entails_beneath base)
          (fun w hw => by cases hw; exact ⟨base, .refl, .inl rfl⟩) c' _ n hn
        rcases hin with hin | hin
        · rw [hnew] at hin
          cases hin
        · exact hs.not_beneath ⟨key, hp⟩ (hin v' rfl)
      · intro w hw
        rcases List.mem_cons.1 hw with rfl | hw
        · exact ⟨hv.lt_size, .single hv⟩
        · exact ⟨(habove w hw).1, (habove w hw).2.tail hv⟩
    · exact yields_lift_bind (fun e => Scene.isDangling_of_nodeKind) fun kind hnode =>
        yields_introduce h₁ hc₁ hnew (bare_of_nodeKind hnode).1

theorem yields_value (hs : s.Acyclic) (h : g.Orderly) (hc : g.Consistent s) {c : ContextId}
    {stmt : Option StmtId} : Yields (Growing.value s c v stmt) g fun _ g' => g'.Orderly :=
  yields_valueWithin hs [] h hc .nil (by simp) (by simp)

theorem yields_objectField (h : g.Orderly) {key : FieldKey} :
    Yields (Growing.objectField o key) g fun _ g' => g'.Orderly := by
  refine yields_node_bind fun a ha => ?_
  split
  · exact yields_pure h
  · next hkey =>
    refine yields_bind ((yields_intern h (by simp)).and ensures_intern) ?_
    rintro x g₁ ⟨h₁, hcases⟩
    have hold : g₁.At o a := by
      rcases hcases with ⟨-, rfl⟩ | ⟨-, -, rfl⟩
      · exact ha
      · exact at_withNode.2 (.inl ha)
    refine yields_modify_bind (yields_pure (h₁.modifyNode fun b hb => ?_))
    cases Option.some.inj (hold.symm.trans hb)
    refine ⟨h₁.fieldRefs o a hold, fun y hy => ?_⟩
    -- the slot that a container remembers is not the one that was missing
    exact lookup_cons_of_eq_some hkey (h₁.elements o a y hold hy)

theorem yields_fieldOf (h : g.Orderly) {r : NodeId} :
    Yields (Growing.fieldOf r o) g fun _ g' => g'.Orderly := by
  refine yields_node_bind fun a _ => ?_
  split
  · exact yields_bind (yields_objectField h) fun _ _ h₁ => yields_pure h₁
  · exact yields_pure h

theorem yields_element (h : g.Orderly) (hc : g.Consistent s) :
    Yields (Growing.element o) g fun _ g' => g'.Orderly := by
  refine yields_bind ((yields_objectField h).and (ensures_objectField hc)) ?_
  rintro x g₁ ⟨h₁, -, ⟨a, ha, hx⟩, -⟩
  refine yields_modify_bind (yields_pure (h₁.modifyNode fun b hb => ?_))
  cases Option.some.inj (ha.symm.trans hb)
  split
  · refine ⟨h₁.fieldRefs o a ha, fun y hy => ?_⟩
    cases hy
    exact hx
  · exact ⟨h₁.fieldRefs o a ha, fun y => h₁.elements o a y ha⟩

theorem yields_fieldRef (h : g.Orderly) (hc : g.Consistent s) {key : FieldKey} :
    Yields (Growing.fieldRef b key) g fun _ g' => g'.Orderly := by
  refine yields_node_bind fun a _ => yields_get_bind ?_
  split
  · exact yields_pure h
  · next hnew =>
    refine yields_bind ((yields_intern h (by simp)).and ensures_intern) ?_
    rintro n g₁ ⟨-, ⟨hn, -⟩ | ⟨-, rfl, rfl⟩⟩
    · rw [hnew] at hn
      cases hn
    · exact yields_modify_bind (yields_pure (h.listFieldRef hc rfl rfl))

theorem yields_addEdge (h : g.Orderly) (ht : g.EdgeTables) {stmt : Option StmtId} :
    Yields (Growing.addEdge a b k stmt) g fun _ g' => g'.Orderly := by
  refine yields_get_bind ?_
  split
  · exact yields_pure h
  · next hnew =>
    refine yields_node_bind fun _ _ => yields_node_bind fun _ _ => yields_modifyGet ?_
    exact h.withEdge ht (by simpa using hnew)

theorem Orderly.mapPointer (h : g.Orderly) (n : NodeId) (f : PointerInfo → PointerInfo) :
    (g.modifyNode n (·.mapPointer f)).Orderly := by
  refine h.modifyNode fun a ha => ?_
  obtain ⟨-, hrefs, hfields⟩ := a.mapPointer_keeps f
  have helement : (a.mapPointer f).element? = a.element? := by
    unfold Node.mapPointer Node.element?
    cases hk : a.kind <;> simp [hk]
  rw [hrefs, hfields, helement]
  exact ⟨h.fieldRefs n a ha, fun x => h.elements n a x ha⟩

/-- What holds of a graph while it is made. -/
structure Kept (s : Scene) (g : FlowGraph) : Prop where
  consistent : g.Consistent s
  indexed : g.Indexed
  orderly : g.Orderly

theorem Kept.grows {α : Type} {m : Growing α} (h : g.Kept s)
    (hm : Yields m g fun _ g' => g'.Orderly) (hgrows : Ensures m g fun _ g' => g.Grows s g') :
    Yields m g fun _ g' => g'.Kept s :=
  (hm.and hgrows).mono fun _ _ ⟨ho, hg⟩ => ⟨hg.consistent, hg.indexed h.indexed, ho⟩

theorem Makes.yields (hs : s.Acyclic) {α : Type} {m : Growing α} (hm : Makes s m) (h : g.Kept s) :
    Yields m g fun _ g' => g'.Kept s := by
  induction hm generalizing g with
  | pure a => exact yields_pure h
  | bind _ _ ihm ihf => exact yields_bind (ihm h) fun a g₁ h₁ => ihf a h₁
  | value c v stmt =>
    exact h.grows (yields_value hs h.orderly h.consistent)
      ((ensures_value h.consistent).mono fun _ _ h => h.1)
  | globalObject =>
    exact h.grows (yields_intern h.orderly (by simp))
      ((ensures_globalObject h.consistent).mono fun _ _ h => h.1)
  | objectField object key =>
    exact h.grows (yields_objectField h.orderly)
      ((ensures_objectField h.consistent).mono fun _ _ h => h.1)
  | fieldOf fieldRef object =>
    exact h.grows (yields_fieldOf h.orderly) ((ensures_fieldOf h.consistent).mono fun _ _ h => h.1)
  | element object =>
    exact h.grows (yields_element h.orderly h.consistent)
      ((ensures_element h.consistent).mono fun _ _ h => h.1)
  | fieldRef base key =>
    exact h.grows (yields_fieldRef h.orderly h.consistent) (ensures_fieldRef h.consistent)
  | boundFunction origin method binding receiver =>
    exact h.grows (yields_intern h.orderly (by simp)) (ensures_boundFunction h.consistent)
  | synthetic c object owner =>
    refine h.grows (yields_intern h.orderly ?_) (ensures_synthetic h.consistent)
    cases owner with
    | none => simp
    | some owner => exact shape_element (shape_allocation owner).1
  | temporary c stmt =>
    exact h.grows (yields_intern h.orderly (by simp))
      ((ensures_temporary h.consistent).mono fun _ _ h => h.1)
  | slot space key =>
    exact h.grows (yields_intern h.orderly (by simp)) (ensures_slot h.consistent)
  | mapPointer n f =>
    exact yields_modify ⟨h.consistent.mapPointer n f, h.indexed, h.orderly.mapPointer n f⟩
  | addEdge a b k stmt =>
    refine ((yields_addEdge h.orderly h.consistent.tables).and ensures_addEdge).mono ?_
    rintro _ g' ⟨ho, ⟨-, -, rfl⟩ | ⟨-, -, ha, hb, rfl⟩⟩
    · exact h
    · exact ⟨h.consistent.withEdge ha hb, h.indexed, ho⟩

/-- All tables say the same, and they say it once. -/
structure Represented (g : FlowGraph) : Prop where
  /-- Keys and nodes correspond, and each node carries its key. -/
  interned : ∀ (c : ContextId) (l : Location) n, g.interned[(c, l)]? = some n ↔
    ∃ a, g.At n a ∧ a.context = c ∧ a.location = l
  /-- A node lists each field reference through it once. -/
  fieldRefs : ∀ r b key, g.IsFieldRef r b key → ∃ a, g.At b a ∧ a.fieldRefs.toList.count r = 1
  onlyFieldRefs : ∀ b a r, g.At b a → r ∈ a.fieldRefs → ∃ key, g.IsFieldRef r b key
  /-- An object lists the nodes of its parts, which live in its own context. -/
  fields : ∀ o a key x, g.At o a → (a.fields.lookup key = some x ↔
    ∃ c : ContextId, g.interned[(c, Location.field o key)]? = some x)
  owners : ∀ (c : ContextId) o key x, g.interned[(c, Location.field o key)]? = some x →
    ∃ a, g.At o a ∧ a.context = c
  elements : ∀ o a x, g.At o a → a.element? = some x → a.fields.lookup .element = some x
  instances : ∀ v c n, g.Lists v c n ↔ g.interned[(c, Location.value v)]? = some n
  /-- No two edges have the same ends and the same kind. -/
  edges : ∀ i j e e', g.edge? i = some e → g.edge? j = some e' → e'.source = e.source →
    e'.target = e.target → e'.kind = e.kind → i = j
  outgoing : ∀ n k, (g.outgoing[(n, k)]?).getD [] =
    g.edgesWhere fun e => e.source = n ∧ e.kind = k
  incoming : ∀ n k, (g.incoming[(n, k)]?).getD [] =
    g.edgesWhere fun e => e.target = n ∧ e.kind = k
  addresses : g.addressEdges.toList = g.edgesWhere (·.kind = .address)

theorem Kept.represented (h : g.Kept s) : g.Represented where
  interned := h.consistent.interned
  fieldRefs r b key hr := by
    have ha : g.At b _ := Array.getElem?_eq_getElem (h.consistent.bases r b key hr)
    refine ⟨_, ha, List.count_eq_one_of_mem (h.orderly.fieldRefs b _ ha) ?_⟩
    exact Array.mem_toList_iff.2 ((h.consistent.fieldRefs b _ r ha).2 ⟨key, hr⟩)
  onlyFieldRefs b a r ha hr := (h.consistent.fieldRefs b a r ha).1 hr
  fields o a key x ha := by
    rw [h.consistent.fields o a key x ha]
    constructor
    · rintro ⟨b, hb, hl⟩
      exact ⟨b.context, (h.consistent.interned ..).2 ⟨b, hb, rfl, hl⟩⟩
    · rintro ⟨c, hx⟩
      obtain ⟨b, hb, -, hl⟩ := (h.consistent.interned ..).1 hx
      exact ⟨b, hb, hl⟩
  owners c o key x hx := by
    obtain ⟨b, hb, rfl, hl⟩ := (h.consistent.interned ..).1 hx
    exact h.consistent.owners x b o key hb hl
  elements := h.orderly.elements
  instances v c n := ⟨h.consistent.instances v c n, h.indexed c v n⟩
  edges := h.orderly.unique
  outgoing := h.orderly.outgoing
  incoming := h.orderly.incoming
  addresses := h.orderly.addresses

/-- Whatever a program makes of the empty graph is represented exactly, and the program fails only at
a position that its table does not have. -/
theorem makes_represented (hs : s.Acyclic) {α : Type} {m : Growing α} (hm : Makes s m) :
    (∀ a g, m {} = .ok a g → g.Represented) ∧ ∀ e g, m {} = .error e g → e.IsDangling := by
  have h := hm.yields hs ⟨.empty s, by simp [Indexed], orderly_empty⟩
  exact ⟨fun a g hrun => (h.1 a g hrun).represented, h.2⟩

/-- The values `x`, `x.f`, `x.f[0]`, `x.f[1]` and a new array. -/
private def nested : Scene where
  values := #[.var "x" .any, .field ⟨0⟩ ⟨"Foo", "f"⟩, .element ⟨1⟩ ⟨0⟩, .element ⟨1⟩ ⟨0⟩,
    .newArray .any]

private theorem nested_acyclic : nested.Acyclic := by
  refine Scene.acyclic_of_lt ?_
  rintro ⟨k⟩ base hpart
  have hk : k < 5 := hpart.lt_size
  obtain ⟨key, hkey⟩ := hpart
  match k, hk with
  | 0, _ => cases hkey
  | 1, _ | 2, _ | 3, _ =>
    cases hkey
    decide
  | 4, _ => cases hkey

/-- Both elements of `x.f` get one node, and an edge that is added twice is one edge. -/
private def nesting : Growing Unit := do
  let first ← Growing.value nested .empty ⟨2⟩ none
  let second ← Growing.value nested .empty ⟨3⟩ none
  let array ← Growing.value nested .empty ⟨4⟩ none
  let slot ← Growing.element array
  let x ← Growing.value nested .empty ⟨0⟩ none
  let _ ← Growing.addEdge array x .address none
  let _ ← Growing.addEdge slot first .load none
  let _ ← Growing.addEdge slot second .load none

private theorem makes_nesting : Makes nested nesting :=
  .bind (.value ..) fun _ => .bind (.value ..) fun _ => .bind (.value ..) fun _ =>
    .bind (.element ..) fun _ => .bind (.value ..) fun _ => .bind (.addEdge ..) fun _ =>
    .bind (.addEdge ..) fun _ => .bind (.addEdge ..) fun _ => .pure ()

theorem makes_represented_nesting :
    ∃ g, nesting {} = .ok () g ∧ g.nodes.size = 5 ∧ g.edges.size = 2 ∧ g.Represented := by
  have hrun : (match nesting {} with
      | .ok _ g => g.nodes.size == 5 && g.edges.size == 2
      | .error .. => false) = true := by decide +kernel
  split at hrun
  · next g hg =>
    simp only [Bool.and_eq_true, beq_iff_eq] at hrun
    exact ⟨g, hg, hrun.1, hrun.2, (makes_represented nested_acyclic makes_nesting).1 () g hg⟩
  · cases hrun

end FlowGraph

end PointsTo
