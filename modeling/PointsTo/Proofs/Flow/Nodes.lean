import PointsTo.Proofs.Flow.Edges

/-! Nodes of a flow graph are found again by what they stand for, whatever is added to it. -/
namespace PointsTo

/-- The kind of node that a value has if it is no part of another value. -/
def Scene.nodeKind (s : Scene) (v : ValueId) : Except Fault NodeKind := do
  if (← s.globalProperty? v).isSome then return .staticField {}
  match ← s.value v with
  | .var name _ => return if name = Name.receiver then .receiver {} else .var {}
  | .staticField _ => return .staticField {}
  | .new owner => return Growing.allocation owner
  | .newArray _ => return .container .array none
  | .functionRef m => return .function { method := m }
  | _ => return .other

/-- Makes the node of a value that has none: that of a part after the node of its base. -/
def Growing.fresh (s : Scene) (fuel : Nat) (c : ContextId) (v : ValueId) (stmt : Option StmtId) :
    Growing NodeId := do
  match ← s.place? v with
  | some (.part base key) =>
    introduce c v stmt (.fieldRef (← valueWithin s fuel c base stmt) key)
  | _ => introduce c v stmt (← s.nodeKind v)

theorem Growing.valueWithin_succ {s : Scene} {fuel : Nat} {c : ContextId} {v : ValueId}
    {stmt : Option StmtId} : valueWithin s (fuel + 1) c v stmt = (do
      if (← s.value v).isGlobalObject then globalObject
      else
        let (c, v) ← settle s c v
        match (← get).interned[(c, Location.value v)]? with
        | some n => return n
        | none => fresh s fuel c v stmt) := by
  refine bind_congr fun a => ?_
  split
  · rfl
  refine bind_congr fun k => bind_congr fun g => ?_
  cases g.interned[(k.1, Location.value k.2)]? with
  | some n => rfl
  | none =>
    dsimp only
    rw [fresh, Scene.place?, Scene.nodeKind]
    cases s.globalProperty? k.2 with
    | error e => rfl
    | ok prop? =>
      cases prop? with
      | some name => rfl
      | none =>
        cases s.value k.2 with
        | error e => rfl
        | ok a => cases a <;> rfl

/-- A value is known under itself, or under another value that names the same place. -/
def Scene.Settles (s : Scene) (c : ContextId) (v : ValueId) (k : ContextId × ValueId) : Prop :=
  k = (c, v) ∨ ∃ p, s.place? v = .ok (some p) ∧ s.place? k.2 = .ok (some p) ∧
    k.1 = if p.isShared then .empty else c

/-- What holds of a value under a context holds of all that is looked up on its behalf. -/
structure Scene.Entails (s : Scene) (P : ContextId → Location → Prop) : Prop where
  settled : ∀ c v k, P c (.value v) → s.Settles c v k → P k.1 (.value k.2)
  parts : ∀ c v base key, P c (.value v) → s.place? v = .ok (some (.part base key)) →
    P c (.value base)
  globals : ∀ c v a, P c (.value v) → s.value v = .ok a → a.isGlobalObject = true →
    P .empty .globalObject

/-- The kinds that a node may have because of what it stands for. -/
def Location.Admits (s : Scene) : Location → NodeKind → Prop
  | .value v, kind =>
    (∀ base key, s.place? v ≠ .ok (some (.part base key))) → s.nodeKind v = .ok kind
  | .temporary _, kind => kind = .var {}
  | .globalObject, kind => kind = .globalObject {}
  | _, _ => True

namespace FlowGraph

/-- The table of instances has `n` as the node of a value under a context. -/
def Lists (g : FlowGraph) (v : ValueId) (c : ContextId) (n : NodeId) : Prop :=
  ∃ nodes, g.instances[v]? = some nodes ∧ nodes[c]? = some n

/-- The nodes and the tables of a graph for the values of a scene say the same. -/
structure Consistent (s : Scene) (g : FlowGraph) : Prop where
  tables : g.EdgeTables
  interned : ∀ (c : ContextId) (l : Location) n, g.interned[(c, l)]? = some n ↔
    ∃ a, g.At n a ∧ a.context = c ∧ a.location = l
  /-- A node lists exactly the field references through it. -/
  fieldRefs : ∀ b a r, g.At b a →
    (r ∈ a.fieldRefs ↔ ∃ key, g.IsFieldRef r b key)
  bases : ∀ r b key, g.IsFieldRef r b key → b.index < g.nodes.size
  /-- A node lists exactly the parts of it that have a node. -/
  fields : ∀ o a key x, g.At o a →
    (a.fields.lookup key = some x ↔ ∃ a', g.At x a' ∧ a'.location = .field o key)
  owners : ∀ x a o key, g.At x a → a.location = .field o key →
    ∃ a', g.At o a' ∧ a'.context = a.context
  /-- Of the values that name one place, only one has nodes. -/
  places : ∀ n a v p, g.At n a → a.location = .value v →
    s.place? v = .ok (some p) →
    g.representatives.lookup p = some v ∧ (p.isShared = true → a.context = .empty)
  representatives : ∀ p v, g.representatives.lookup p = some v → s.place? v = .ok (some p)
  /-- The node of a part of a value refers to the node of that value. -/
  parts : ∀ n a v base key, g.At n a → a.location = .value v →
    s.place? v = .ok (some (.part base key)) →
    ∃ b, a.kind = .fieldRef b key ∧ g.nodeOf? s a.context base = .ok (some b)
  kinds : ∀ n a, g.At n a → a.location.Admits s a.kind.shape
  instances : ∀ v c n, g.Lists v c n → g.interned[(c, Location.value v)]? = some n

variable {s : Scene} {g g' : FlowGraph} {key : FieldKey} {c : ContextId} {v : ValueId} {a x : Node}
  {m o : NodeId} {f : Node → Node}

theorem Consistent.empty (s : Scene) : Consistent s {} := by
  have hat : ∀ n a, ¬ FlowGraph.At {} n a := by simp [At]
  constructor
  · constructor <;> simp [edge?]
  all_goals simp [hat, IsFieldRef, Lists]

/-- A field node is found by its object and the name of the part. -/
theorem Consistent.isField_iff (h : g.Consistent s) {x : NodeId} :
    g.IsField x o key ↔ ∃ a, g.At x a ∧ a.location = .field o key := by
  constructor
  · rintro ⟨a, ha, hk⟩
    exact (h.fields o a key x ha).1 hk
  · rintro ⟨a, ha, hl⟩
    obtain ⟨b, hb, -⟩ := h.owners x a o key ha hl
    exact ⟨b, hb, (h.fields o b key x hb).2 ⟨a, ha, hl⟩⟩

theorem nodeOf?_eq_some {n : NodeId} : g.nodeOf? s c v = .ok (some n) ↔ ∃ a, s.value v = .ok a ∧
      if a.isGlobalObject then g.interned[(ContextId.empty, Location.globalObject)]? = some n
      else ∃ k, g.known s c v = .ok k ∧ g.interned[(k.1, Location.value k.2)]? = some n := by
  unfold nodeOf?
  cases s.value v with
  | error f => simp [bind, Except.bind]
  | ok a =>
    cases ha : a.isGlobalObject with
    | true => simp [ha, bind, Except.bind, pure, Except.pure]
    | false =>
      cases hk : g.known s c v with
      | error f => simp [ha, bind, Except.bind]
      | ok k => simp [ha, bind, Except.bind, pure, Except.pure]

theorem known_eq_ok {k : ContextId × ValueId} : g.known s c v = .ok k ↔ ∃ p?, s.place? v = .ok p? ∧
      k = match p? with
        | none => (c, v)
        | some p => (if p.isShared then .empty else c, (g.representatives.lookup p).getD v) := by
  unfold known
  cases s.place? v with
  | error f => simp [bind, Except.bind]
  | ok p? => cases p? <;> simp [bind, Except.bind, pure, Except.pure, @eq_comm _ k]

/-- Once a value has a node, it is known under the same name while the tables only grow. -/
theorem Consistent.known_mono (h : g.Consistent s) {n : NodeId} {k : ContextId × ValueId}
    (hr : ∀ p v, g.representatives.lookup p = some v → g'.representatives.lookup p = some v)
    (hk : g.known s c v = .ok k) (hn : g.interned[(k.1, Location.value k.2)]? = some n) :
    g'.known s c v = .ok k := by
  rw [known_eq_ok] at hk ⊢
  obtain ⟨p?, hp, rfl⟩ := hk
  refine ⟨p?, hp, ?_⟩
  cases p? with
  | none => rfl
  | some p =>
    cases hl : g.representatives.lookup p with
    | some v' => simp [hl, hr p v' hl]
    | none =>
      -- a value with a node represents its place
      obtain ⟨a, ha, -, hv⟩ := (h.interned ..).1 hn
      have hv : a.location = .value v := by simpa [hl] using hv
      have := (h.places n a v p ha hv hp).1
      rw [hl] at this
      cases this

theorem Consistent.nodeOf?_mono (h : g.Consistent s) {n : NodeId}
    (hi : ∀ (c : ContextId) (l : Location) n, g.interned[(c, l)]? = some n →
      g'.interned[(c, l)]? = some n)
    (hr : ∀ p v, g.representatives.lookup p = some v → g'.representatives.lookup p = some v)
    (hn : g.nodeOf? s c v = .ok (some n)) : g'.nodeOf? s c v = .ok (some n) := by
  rw [nodeOf?_eq_some] at hn ⊢
  obtain ⟨a, ha, hn⟩ := hn
  refine ⟨a, ha, ?_⟩
  split
  · next hg =>
    rw [if_pos hg] at hn
    exact hi _ _ _ hn
  · next hg =>
    rw [if_neg hg] at hn
    obtain ⟨k, hk, hn⟩ := hn
    exact ⟨k, h.known_mono hr hk hn, hi _ _ _ hn⟩

/-- The graph with one more node. -/
def withNode (g : FlowGraph) (a : Node) : FlowGraph :=
  { g with
    nodes := g.nodes.push a
    interned := g.interned.insert (a.context, a.location) ⟨g.nodes.size⟩ }

/-- The graph with one node changed. -/
def modifyNode (g : FlowGraph) (n : NodeId) (f : Node → Node) : FlowGraph :=
  { g with nodes := g.nodes.modify n.index f }

theorem at_withNode {b : Node} {n : NodeId} :
    (g.withNode a).At n b ↔ g.At n b ∨ (n = ⟨g.nodes.size⟩ ∧ b = a) := by
  simp only [At, withNode, Array.getElem?_push]
  split
  · next h =>
    have hn : n = ⟨g.nodes.size⟩ := Ref.index_inj.1 h
    simp [hn, @eq_comm _ b]
  · next h =>
    have hn : n ≠ ⟨g.nodes.size⟩ := fun hn => h (congrArg Ref.index hn)
    simp [hn]

theorem at_modifyNode {n : NodeId} {b : Node} :
    (g.modifyNode m f).At n b ↔ ∃ a, g.At n a ∧ b = if n = m then f a else a := by
  simp only [At, modifyNode, Array.getElem?_modify, Ref.index_inj, @eq_comm _ m]
  split
  · simp [Option.map_eq_some_iff, @eq_comm _ b]
  · simp

theorem size_modifyNode {n : NodeId} : (g.modifyNode n f).nodes.size = g.nodes.size :=
  Array.size_modify ..

/-- `g'` is `g` with the node `new`, if there is one, which is listed where it belongs. -/
structure Gets (g g' : FlowGraph) (new : Option Node) : Prop where
  edges : g'.edges = g.edges
  outgoing : g'.outgoing = g.outgoing
  incoming : g'.incoming = g.incoming
  addressEdges : g'.addressEdges = g.addressEdges
  representatives : g'.representatives = g.representatives
  instances : g'.instances = g.instances
  interned : ∀ (c : ContextId) (l : Location) n, g'.interned[(c, l)]? = some n ↔
    g.interned[(c, l)]? = some n ∨ (n = ⟨g.nodes.size⟩ ∧ ∃ a ∈ new, a.context = c ∧ a.location = l)
  added : ∀ a ∈ new, g'.At ⟨g.nodes.size⟩ a
  origin : ∀ n a, g'.At n a → (∃ b, g.At n b) ∨ (n = ⟨g.nodes.size⟩ ∧ new = some a)
  old : ∀ n a, g.At n a → ∃ a', g'.At n a' ∧ a.Keeps a' ∧
    (∀ r, r ∈ a'.fieldRefs ↔
      r ∈ a.fieldRefs ∨ (r = ⟨g.nodes.size⟩ ∧ ∃ b ∈ new, ∃ key, b.kind = .fieldRef n key)) ∧
    (∀ key x, a'.fields.lookup key = some x ↔ a.fields.lookup key = some x ∨
      (x = ⟨g.nodes.size⟩ ∧ ∃ b ∈ new, b.location = .field n key))

/-- What a new node has to satisfy. -/
structure Fits (s : Scene) (g : FlowGraph) (a : Node) : Prop where
  interned : g.interned[(a.context, a.location)]? = none
  fieldRefs : a.fieldRefs = #[]
  fields : a.fields = []
  base : ∀ b key, a.kind = .fieldRef b key → b.index < g.nodes.size
  owner : ∀ o key, a.location = .field o key → ∃ b, g.At o b ∧ b.context = a.context
  place : ∀ v p, a.location = .value v → s.place? v = .ok (some p) →
    g.representatives.lookup p = some v ∧ (p.isShared = true → a.context = .empty)
  part : ∀ v base key, a.location = .value v → s.place? v = .ok (some (.part base key)) →
    ∃ b, a.kind = .fieldRef b key ∧ g.nodeOf? s a.context base = .ok (some b)
  kind : a.location.Admits s a.kind.shape

namespace Gets

variable {new : Option Node}

theorem lt_size (h : Gets g g' new) {n : NodeId} (hn : n.index < g.nodes.size) :
    n.index < g'.nodes.size := by
  obtain ⟨a', ha', -⟩ := h.old n _ (Array.getElem?_eq_getElem hn)
  exact ha'.lt_size

/-- A node of the larger graph is an old one or the new one. -/
theorem cases (h : Gets g g' new) {n : NodeId} {a' : Node} (ha' : g'.At n a') :
    (∃ a, g.At n a ∧ a.Keeps a') ∨ (n = ⟨g.nodes.size⟩ ∧ new = some a') := by
  refine (h.origin n a' ha').imp_left fun ⟨a, ha⟩ => ?_
  obtain ⟨b, hb, hk, -⟩ := h.old n a ha
  cases Option.some.inj (hb.symm.trans ha')
  exact ⟨a, ha, hk⟩

theorem isFieldRef_iff (h : Gets g g' new) {r b : NodeId} {key : FieldKey} :
    g'.IsFieldRef r b key ↔ g.IsFieldRef r b key ∨
      (r = ⟨g.nodes.size⟩ ∧ ∃ a ∈ new, a.kind = .fieldRef b key) := by
  constructor
  · rintro ⟨a', ha', hk⟩
    rcases h.cases ha' with ⟨a, ha, hkeep⟩ | ⟨rfl, rfl⟩
    · rw [← Node.fieldRef?_eq_some, hkeep.fieldRef?, Node.fieldRef?_eq_some] at hk
      exact .inl ⟨a, ha, hk⟩
    · exact .inr ⟨rfl, a', rfl, hk⟩
  · rintro (⟨a, ha, hk⟩ | ⟨rfl, a, ha, hk⟩)
    · obtain ⟨a', ha', hkeep, -⟩ := h.old r a ha
      rw [← Node.fieldRef?_eq_some, ← hkeep.fieldRef?, Node.fieldRef?_eq_some] at hk
      exact ⟨a', ha', hk⟩
    · exact ⟨a, h.added a ha, hk⟩

theorem located_iff (h : Gets g g' new) {x : NodeId} {l : Location} :
    (∃ a, g'.At x a ∧ a.location = l) ↔ (∃ a, g.At x a ∧ a.location = l) ∨
      (x = ⟨g.nodes.size⟩ ∧ ∃ a ∈ new, a.location = l) := by
  constructor
  · rintro ⟨a', ha', hl⟩
    rcases h.cases ha' with ⟨a, ha, hkeep⟩ | ⟨rfl, rfl⟩
    · exact .inl ⟨a, ha, hkeep.location.symm.trans hl⟩
    · exact .inr ⟨rfl, a', rfl, hl⟩
  · rintro (⟨a, ha, hl⟩ | ⟨rfl, a, ha, hl⟩)
    · obtain ⟨a', ha', hkeep, -⟩ := h.old x a ha
      exact ⟨a', ha', hkeep.location.trans hl⟩
    · exact ⟨a, h.added a ha, hl⟩

end Gets

section

variable {new : Option Node}

private theorem interned_gets (h : g.Consistent s) (hg : Gets g g' new) (c : ContextId)
    (l : Location) (n : NodeId) : g'.interned[(c, l)]? = some n ↔
      ∃ a, g'.At n a ∧ a.context = c ∧ a.location = l := by
  rw [hg.interned, h.interned]
  constructor
  · rintro (⟨a, ha, hc, hl⟩ | ⟨rfl, a, ha, hc⟩)
    · obtain ⟨a', ha', hkeep, -⟩ := hg.old n a ha
      exact ⟨a', ha', hkeep.context.trans hc, hkeep.location.trans hl⟩
    · exact ⟨a, hg.added a ha, hc⟩
  · rintro ⟨a', ha', hc, hl⟩
    rcases hg.cases ha' with ⟨a, ha, hkeep⟩ | ⟨rfl, rfl⟩
    · exact .inl ⟨a, ha, hkeep.context.symm.trans hc, hkeep.location.symm.trans hl⟩
    · exact .inr ⟨rfl, a', rfl, hc, hl⟩

private theorem fieldRefs_gets (h : g.Consistent s) (hg : Gets g g' new)
    (hf : ∀ a ∈ new, Fits s g a) (b : NodeId) (a' : Node) (r : NodeId) (ha' : g'.At b a') :
    r ∈ a'.fieldRefs ↔ ∃ key, g'.IsFieldRef r b key := by
  simp only [hg.isFieldRef_iff]
  rcases hg.cases ha' with ⟨a, ha, -⟩ | ⟨rfl, rfl⟩
  · obtain ⟨a₂, ha₂, -, href, -⟩ := hg.old b a ha
    cases Option.some.inj (ha₂.symm.trans ha')
    rw [href, h.fieldRefs b a r ha, exists_or]
    refine or_congr_right ?_
    constructor
    · rintro ⟨rfl, x, hx, key, hk⟩
      exact ⟨key, rfl, x, hx, hk⟩
    · rintro ⟨key, rfl, x, hx, hk⟩
      exact ⟨rfl, x, hx, key, hk⟩
  · -- nothing refers through the new node yet
    rw [(hf a' rfl).fieldRefs]
    constructor
    · intro hr
      exact absurd hr (Array.not_mem_empty r)
    · rintro ⟨key, hr | ⟨-, x, hx, hk⟩⟩
      · exact absurd (h.bases r _ key hr) (Nat.lt_irrefl _)
      · exact absurd ((hf x hx).base _ key hk) (Nat.lt_irrefl _)

private theorem fields_gets (h : g.Consistent s) (hg : Gets g g' new)
    (hf : ∀ a ∈ new, Fits s g a) (o : NodeId) (a' : Node) (key : FieldKey) (x : NodeId)
    (ha' : g'.At o a') :
    a'.fields.lookup key = some x ↔ ∃ b, g'.At x b ∧ b.location = .field o key := by
  rw [hg.located_iff]
  rcases hg.cases ha' with ⟨a, ha, -⟩ | ⟨rfl, rfl⟩
  · obtain ⟨a₂, ha₂, -, -, hfld⟩ := hg.old o a ha
    cases Option.some.inj (ha₂.symm.trans ha')
    rw [hfld, h.fields o a key x ha]
  · -- nothing is a part of the new node yet
    rw [(hf a' rfl).fields]
    constructor
    · intro hx
      cases hx
    · rintro (⟨b, hb, hl⟩ | ⟨-, b, hb, hl⟩)
      · obtain ⟨d, hd, -⟩ := h.owners x b _ key hb hl
        exact absurd hd.lt_size (Nat.lt_irrefl _)
      · obtain ⟨d, hd, -⟩ := (hf b hb).owner _ key hl
        exact absurd hd.lt_size (Nat.lt_irrefl _)

/-- A node that fits is added without harm. -/
theorem Consistent.gets (h : g.Consistent s) (hg : Gets g g' new)
    (hf : ∀ a ∈ new, Fits s g a) : g'.Consistent s where
  tables := by
    constructor
    · simpa only [edge?, hg.edges, hg.outgoing] using h.tables.outgoing
    · simpa only [edge?, hg.edges, hg.incoming] using h.tables.incoming
    · simpa only [edge?, hg.edges, hg.addressEdges] using h.tables.addresses
    · intro e he
      rw [hg.edges] at he
      exact (h.tables.ends e he).imp hg.lt_size hg.lt_size
  interned := interned_gets h hg
  fieldRefs := fieldRefs_gets h hg hf
  bases r b key hr := by
    rcases hg.isFieldRef_iff.1 hr with hr | ⟨-, a, ha, hk⟩
    · exact hg.lt_size (h.bases r b key hr)
    · exact hg.lt_size ((hf a ha).base b key hk)
  fields := fields_gets h hg hf
  owners x a' o key ha' hl := by
    obtain ⟨b, hb, hc⟩ : ∃ b, g.At o b ∧ b.context = a'.context := by
      rcases hg.cases ha' with ⟨a, ha, hkeep⟩ | ⟨-, rfl⟩
      · rw [hkeep.context]
        exact h.owners x a o key ha (hkeep.location.symm.trans hl)
      · exact (hf a' rfl).owner o key hl
    obtain ⟨b', hb', hkeep, -⟩ := hg.old o b hb
    exact ⟨b', hb', hkeep.context.trans hc⟩
  places n a' v p ha' hl hp := by
    rw [hg.representatives]
    rcases hg.cases ha' with ⟨a, ha, hkeep⟩ | ⟨-, rfl⟩
    · rw [hkeep.context]
      exact h.places n a v p ha (hkeep.location.symm.trans hl) hp
    · exact (hf a' rfl).place v p hl hp
  representatives := hg.representatives ▸ h.representatives
  parts n a' v base key ha' hl hp := by
    obtain ⟨b, hk, hb⟩ : ∃ b, a'.kind = .fieldRef b key ∧
        g.nodeOf? s a'.context base = .ok (some b) := by
      rcases hg.cases ha' with ⟨a, ha, hkeep⟩ | ⟨-, rfl⟩
      · obtain ⟨b, hk, hb⟩ := h.parts n a v base key ha (hkeep.location.symm.trans hl) hp
        rw [← Node.fieldRef?_eq_some, ← hkeep.fieldRef?, Node.fieldRef?_eq_some] at hk
        exact ⟨b, hk, hkeep.context ▸ hb⟩
      · exact (hf a' rfl).part v base key hl hp
    refine ⟨b, hk, h.nodeOf?_mono (fun c l n hn => (hg.interned c l n).2 (.inl hn)) ?_ hb⟩
    intro p v hv
    exact hg.representatives ▸ hv
  kinds n a' ha' := by
    rcases hg.cases ha' with ⟨a, ha, hkeep⟩ | ⟨-, rfl⟩
    · rw [hkeep.location, hkeep.shape]
      exact h.kinds n a ha
    · exact (hf a' rfl).kind
  instances v c n hn := by
    rw [Lists, hg.instances] at hn
    exact (hg.interned ..).2 (.inl (h.instances v c n hn))

end

/-- A change of one node that keeps what it lists. -/
theorem gets_modifyNode {n : NodeId}
    (hf : ∀ a, g.At n a → a.Keeps (f a) ∧ (∀ r ∈ (f a).fieldRefs, r ∈ a.fieldRefs) ∧
      (f a).fields = a.fields) : Gets g (g.modifyNode n f) none where
  edges := rfl
  outgoing := rfl
  incoming := rfl
  addressEdges := rfl
  representatives := rfl
  instances := rfl
  interned c l m := by simp [modifyNode]
  added := by simp
  origin m a ha := by
    obtain ⟨b, hb, -⟩ := at_modifyNode.1 ha
    exact .inl ⟨b, hb⟩
  old m a ha := by
    refine ⟨_, at_modifyNode.2 ⟨a, ha, rfl⟩, ?_⟩
    split
    · next h =>
      subst h
      obtain ⟨hkeep, href, hfld⟩ := hf a ha
      refine ⟨hkeep, fun r => ?_, fun key x => by simp [hfld]⟩
      simpa using ⟨href r, hkeep.fieldRefs r⟩
    · exact ⟨.refl a, by simp, by simp⟩

/-- A new node that is then listed by `f` where it belongs. -/
private theorem gets_withNode (hi : g.interned[(a.context, a.location)]? = none)
    (hm : m ≠ ⟨g.nodes.size⟩) (hf : ∀ x, g.At m x → x.Keeps (f x))
    (href : ∀ x r, r ∈ (f x).fieldRefs ↔
      r ∈ x.fieldRefs ∨ (r = ⟨g.nodes.size⟩ ∧ ∃ key, a.kind = .fieldRef m key))
    (hfld : ∀ x, g.At m x → ∀ key y, (f x).fields.lookup key = some y ↔
      x.fields.lookup key = some y ∨ (y = ⟨g.nodes.size⟩ ∧ a.location = .field m key))
    (hother : ∀ n key, n ≠ m → a.kind ≠ .fieldRef n key ∧ a.location ≠ .field n key) :
    Gets g ((g.withNode a).modifyNode m f) (some a) where
  edges := rfl
  outgoing := rfl
  incoming := rfl
  addressEdges := rfl
  representatives := rfl
  instances := rfl
  interned c l n := by
    simp only [modifyNode, withNode, getElem?_insert, Option.mem_some_iff, exists_eq_left']
    split
    · next h =>
      cases h
      simp [hi, @eq_comm _ n]
    · next h =>
      have : ¬ (a.context = c ∧ a.location = l) := by simpa using h
      simp [this]
  added b hb := by
    cases hb
    exact at_modifyNode.2 ⟨a, at_withNode.2 (.inr ⟨rfl, rfl⟩), by simp [hm.symm]⟩
  origin n b hb := by
    obtain ⟨x, hx, rfl⟩ := at_modifyNode.1 hb
    rcases at_withNode.1 hx with hx | ⟨rfl, rfl⟩
    · exact .inl ⟨x, hx⟩
    · exact .inr ⟨rfl, by simp [hm.symm]⟩
  old n x hx := by
    refine ⟨_, at_modifyNode.2 ⟨x, at_withNode.2 (.inl hx), rfl⟩, ?_⟩
    simp only [Option.mem_some_iff, exists_eq_left']
    split
    · next h =>
      subst h
      exact ⟨hf x hx, href x, hfld x hx⟩
    · next h =>
      exact ⟨.refl x, by simp [hother n _ h], by simp [hother n _ h]⟩

theorem modifyNode_id (g : FlowGraph) (n : NodeId) : g.modifyNode n id = g := by
  have : g.nodes.modify n.index id = g.nodes := by
    apply Array.ext_getElem?
    intro i
    simp [Array.getElem?_modify]
  simp [modifyNode, this]

/-- A new node that no other node lists. -/
theorem gets_plain (hi : g.interned[(a.context, a.location)]? = none)
    (hkind : ∀ n key, a.kind ≠ .fieldRef n key) (hloc : ∀ n key, a.location ≠ .field n key) :
    Gets g (g.withNode a) (some a) := by
  have h := gets_withNode (m := ⟨g.nodes.size + 1⟩) (f := id) hi (by simp [← Ref.index_inj])
    (fun x _ => .refl x) (by simp [hkind]) (by simp [hloc])
    fun n key _ => ⟨hkind n key, hloc n key⟩
  rwa [modifyNode_id] at h

/-- A new field reference, listed by its base. -/
theorem gets_fieldRef {b : NodeId} (hi : g.interned[(a.context, a.location)]? = none)
    (hb : b.index < g.nodes.size) (hkind : a.kind = .fieldRef b key)
    (hloc : ∀ n key, a.location ≠ .field n key) : Gets g ((g.withNode a).modifyNode b fun x =>
      { x with fieldRefs := x.fieldRefs.push ⟨g.nodes.size⟩ }) (some a) := by
  refine gets_withNode hi ?_ (fun x _ => ?_) (by simp [hkind]) (by simp [hloc]) ?_
  · rintro rfl
    exact Nat.lt_irrefl _ hb
  · exact ⟨rfl, rfl, rfl, rfl, fun _ _ h => h, fun r h => Array.mem_push_of_mem _ h⟩
  · intro n key' hn
    exact ⟨by simp [hkind, Ne.symm hn], hloc n key'⟩

/-- A new part of an object, listed by the object. -/
theorem gets_field (hi : g.interned[(a.context, a.location)]? = none) (ho : g.At o x)
    (hx : x.fields.lookup key = none) (hkind : ∀ n key, a.kind ≠ .fieldRef n key)
    (hloc : a.location = .field o key) : Gets g ((g.withNode a).modifyNode o fun x =>
      { x with fields := (key, ⟨g.nodes.size⟩) :: x.fields }) (some a) := by
  have hnone : ∀ y, g.At o y → y.fields.lookup key = none := by
    intro y hy
    cases Option.some.inj (ho.symm.trans hy)
    exact hx
  refine gets_withNode hi ?_ (fun y hy => ?_) (by simp [hkind]) (fun y hy k z => ?_) ?_
  · rintro rfl
    exact Nat.lt_irrefl _ ho.lt_size
  · exact ⟨rfl, rfl, rfl, rfl, fun _ _ => lookup_cons_of_eq_some (hnone y hy), fun _ h => h⟩
  · by_cases hk : k = key
    · subst hk
      simp [hloc, hnone y hy, @eq_comm _ z]
    · simp [List.lookup_cons, beq_eq_false_iff_ne.2 hk, hloc, Ne.symm hk]
  · intro n key' hn
    exact ⟨hkind n key', by simp [hloc, Ne.symm hn]⟩

/-- `g'` has more nodes than `g`, which have no calls yet, and the same edges. -/
structure Adds (g g' : FlowGraph) : Prop where
  edges : g'.edges = g.edges
  addressEdges : g'.addressEdges = g.addressEdges
  representatives : ∀ p v, g.representatives.lookup p = some v →
    g'.representatives.lookup p = some v
  instances : ∀ v c n, g.Lists v c n → g'.Lists v c n
  keeps : ∀ n a, g.At n a → ∃ a', g'.At n a' ∧ a.Keeps a' ∧ a'.pointer? = a.pointer?
  fresh : ∀ n a', g'.At n a' → (∃ a, g.At n a) ∨ ∀ d, ¬ a'.Registers d

theorem Adds.refl (g : FlowGraph) : g.Adds g :=
  ⟨rfl, rfl, fun _ _ h => h, fun _ _ _ h => h, fun _ a ha => ⟨a, ha, .refl a, rfl⟩,
    fun _ a ha => .inl ⟨a, ha⟩⟩

theorem Adds.size_le (h : g.Adds g') : g.nodes.size ≤ g'.nodes.size := by
  refine Nat.le_of_not_lt fun hlt => ?_
  obtain ⟨a, ha, -⟩ := h.keeps ⟨g'.nodes.size⟩ _ (Array.getElem?_eq_getElem hlt)
  exact Nat.lt_irrefl _ ha.lt_size

theorem Adds.trans {g₁ g₂ g₃ : FlowGraph} (h : g₁.Adds g₂) (h' : g₂.Adds g₃) : g₁.Adds g₃ where
  edges := h'.edges.trans h.edges
  addressEdges := h'.addressEdges.trans h.addressEdges
  representatives p v hv := h'.representatives p v (h.representatives p v hv)
  instances v c n hn := h'.instances v c n (h.instances v c n hn)
  keeps n a ha := by
    obtain ⟨b, hb, hab, hp⟩ := h.keeps n a ha
    obtain ⟨c, hc, hbc, hp'⟩ := h'.keeps n b hb
    exact ⟨c, hc, hab.trans hbc, hp'.trans hp⟩
  fresh n c hc := by
    rcases h'.fresh n c hc with ⟨b, hb⟩ | hno
    · refine (h.fresh n b hb).imp_right fun hno d hd => hno d ?_
      obtain ⟨c', hc', -, hp⟩ := h'.keeps n b hb
      cases Option.some.inj (hc'.symm.trans hc)
      obtain ⟨info, hi, hd⟩ := hd
      exact ⟨info, hp.symm.trans hi, hd⟩
    · exact .inr hno

section Adds

variable {n b a : NodeId} {d : SiteId × ContextId} {k : EdgeKind}

theorem Adds.edge_iff (h : g.Adds g') : g'.Edge a b k ↔ g.Edge a b k := by
  rw [Edge, Edge, h.edges]

theorem Adds.copyEdge_iff (h : g.Adds g') : g'.CopyEdge a b ↔ g.CopyEdge a b := by
  simp only [CopyEdge, h.edge_iff]

theorem Adds.registers_iff (h : g.Adds g') : g'.Registers n d ↔ g.Registers n d := by
  constructor
  · rintro ⟨a', ha', hd⟩
    rcases h.fresh n a' ha' with ⟨a, ha⟩ | hno
    · obtain ⟨a₂, ha₂, -, hp⟩ := h.keeps n a ha
      cases Option.some.inj (ha₂.symm.trans ha')
      obtain ⟨info, hi, hd⟩ := hd
      exact ⟨a, ha, info, hp.symm.trans hi, hd⟩
    · exact absurd hd (hno d)
  · rintro ⟨a, ha, info, hi, hd⟩
    obtain ⟨a', ha', -, hp⟩ := h.keeps n a ha
    exact ⟨a', ha', info, hp.trans hi, hd⟩

end Adds

/-- `n` is the node of a value under some context. -/
def HasInstance (g : FlowGraph) (s : Scene) (v : ValueId) (n : NodeId) : Prop :=
  ∃ c instances, g.nodesOf s v = .ok instances ∧ (c, n) ∈ instances

theorem hasInstance_iff {n : NodeId} :
    g.HasInstance s v n ↔ ∃ k c, g.known s .empty v = .ok k ∧ g.Lists k.2 c n := by
  unfold HasInstance nodesOf
  cases g.known s .empty v with
  | error f => simp [bind, Except.bind]
  | ok k =>
    simp only [bind, Except.bind, pure, Except.pure, Except.ok.injEq, exists_eq_left',
      Std.TreeMap.mem_toList_iff_getElem?_eq_some, Lists]
    cases hlist : g.instances[k.2]? <;> simp [hlist]

/-- The nodes of a value are found again, whatever is added to the tables. -/
theorem HasInstance.mono {n : NodeId} (h : g.HasInstance s v n) (hg : g.Consistent s)
    (hlists : ∀ v c n, g.Lists v c n → g'.Lists v c n)
    (hrepresentatives : ∀ p v, g.representatives.lookup p = some v →
      g'.representatives.lookup p = some v) : g'.HasInstance s v n := by
  rw [hasInstance_iff] at h ⊢
  obtain ⟨k, c, hk, hlist⟩ := h
  refine ⟨k, c, ?_, hlists _ _ _ hlist⟩
  rw [known_eq_ok] at hk ⊢
  obtain ⟨place?, hplace, rfl⟩ := hk
  refine ⟨place?, hplace, ?_⟩
  cases place? with
  | none => rfl
  | some place =>
    cases hlookup : g.representatives.lookup place with
    | some w => simp [hlookup, hrepresentatives place w hlookup]
    | none =>
      -- a value with a node represents its place
      obtain ⟨a, ha, -, hl⟩ := (hg.interned ..).1 (hg.instances _ _ _ hlist)
      simp only [hlookup, Option.getD_none] at hl
      cases (hg.places n a v place ha hl hplace).1.symm.trans hlookup

/-- A change of one node does not touch what is attached to it. -/
theorem Gets.adds {new : Option Node} (h : Gets g g' new)
    (hp : ∀ n a a', g.At n a → g'.At n a' → a'.pointer? = a.pointer?)
    (hnew : ∀ a ∈ new, ∀ d, ¬ a.Registers d) : g.Adds g' where
  edges := h.edges
  addressEdges := h.addressEdges
  representatives p v hv := h.representatives ▸ hv
  instances v c n hn := by rwa [Lists, h.instances]
  keeps n a ha := by
    obtain ⟨a', ha', hkeep, -⟩ := h.old n a ha
    exact ⟨a', ha', hkeep, hp n a a' ha ha'⟩
  fresh n a' ha' := by
    rcases h.origin n a' ha' with ha | ⟨-, hn⟩
    · exact .inl ha
    · exact .inr (hnew a' hn)

theorem pointer?_withNode_modifyNode {y : Node} {n : NodeId}
    (hf : ∀ x, (f x).pointer? = x.pointer?) (hx : g.At n x)
    (hy : ((g.withNode a).modifyNode m f).At n y) : y.pointer? = x.pointer? := by
  obtain ⟨z, hz, rfl⟩ := at_modifyNode.1 hy
  rcases at_withNode.1 hz with hz | ⟨rfl, -⟩
  · cases Option.some.inj (hz.symm.trans hx)
    split
    · exact hf x
    · rfl
  · exact absurd hx.lt_size (Nat.lt_irrefl _)

end FlowGraph

end PointsTo
