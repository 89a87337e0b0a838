import Mathlib.Logic.Relation
import PointsTo.Proofs.Flow.Growing
import PointsTo.Proofs.Guard

/-! Nothing that is done to a flow graph takes anything away, also where it fails half-way, and what
stands for an object is one. -/
namespace PointsTo

/-- Whether the nodes of a location are objects. -/
def Location.IsObject (s : Scene) : Location → Prop
  | .value v => ∃ a, s.value v = .ok a ∧ a.isAllocation = true
  | .bound .. | .synthetic _ => True
  | .field .. | .fieldRef .. | .slot .. | .temporary _ | .globalObject => False

/-- Some locations have nodes of one kind only. -/
def Location.Fixes : Location → NodeKind → Prop
  | .fieldRef base key, kind => kind = .fieldRef base key
  | .synthetic (.containerCopy _), kind => kind = .container .array none
  | _, _ => True

theorem Node.isObject_of_function? {a : Node} {f : FunctionInfo} (h : a.function? = some f) :
    a.isObject = true := by
  unfold Node.function? at h
  unfold Node.isObject
  cases hk : a.kind <;> simp_all

/-- Whatever is attached to `a` is attached to `a'` in the same way. -/
def Node.KeepsCalls (a a' : Node) : Prop :=
  ∀ info, a.pointer? = some info → ∃ info', a'.pointer? = some info' ∧
    info.dynamicCalls ⊆ info'.dynamicCalls ∧ info.unknownCalls ⊆ info'.unknownCalls ∧
    info.instanceCalls ⊆ info'.instanceCalls

theorem Node.KeepsCalls.of_pointer? {a a' : Node} (h : a'.pointer? = a.pointer?) :
    a.KeepsCalls a' :=
  fun info hinfo => ⟨info, h.trans hinfo, fun _ h => h, fun _ h => h, fun _ h => h⟩

theorem Node.KeepsCalls.trans {a b c : Node} (h : a.KeepsCalls b) (h' : b.KeepsCalls c) :
    a.KeepsCalls c := by
  intro info hinfo
  obtain ⟨info₁, hinfo₁, h₁, h₂, h₃⟩ := h info hinfo
  obtain ⟨info₂, hinfo₂, h₁', h₂', h₃'⟩ := h' info₁ hinfo₁
  exact ⟨info₂, hinfo₂, List.Subset.trans h₁ h₁', List.Subset.trans h₂ h₂',
    List.Subset.trans h₃ h₃'⟩

namespace FlowGraph

variable {g₁ g₂ g₃ : FlowGraph}

/-- `g'` has everything that `g` has. -/
structure Persists (g g' : FlowGraph) : Prop where
  nodes : ∀ n a, g.At n a → ∃ a', g'.At n a' ∧ a.Keeps a'
  edge? : ∀ i e, g.edge? i = some e → g'.edge? i = some e
  addresses : g.addressEdges.toList <+: g'.addressEdges.toList

theorem Persists.refl (g : FlowGraph) : g.Persists g :=
  ⟨fun _ a ha => ⟨a, ha, .refl a⟩, fun _ _ h => h, List.prefix_rfl⟩

theorem Persists.trans (h : g₁.Persists g₂) (h' : g₂.Persists g₃) : g₁.Persists g₃ where
  nodes n a ha := by
    obtain ⟨b, hb, hab⟩ := h.nodes n a ha
    obtain ⟨c, hc, hbc⟩ := h'.nodes n b hb
    exact ⟨c, hc, hab.trans hbc⟩
  edge? i e he := h'.edge? i e (h.edge? i e he)
  addresses := h.addresses.trans h'.addresses

section Persists

variable {g g' : FlowGraph} {s : Scene} {n o x b : NodeId} {k : EdgeKind} {key : FieldKey}

theorem Persists.edge (h : g.Persists g') {a : NodeId} (he : g.Edge a b k) : g'.Edge a b k := by
  obtain ⟨e, he, ha⟩ := he
  obtain ⟨i, hi⟩ := Array.mem_iff_getElem?.1 he
  exact ⟨e, Array.mem_iff_getElem?.2 ⟨i, h.edge? ⟨i⟩ e hi⟩, ha⟩

theorem Persists.lt_size (h : g.Persists g') (hn : n.index < g.nodes.size) :
    n.index < g'.nodes.size := by
  obtain ⟨a', ha', -⟩ := h.nodes n _ (Array.getElem?_eq_getElem hn)
  exact ha'.lt_size

/-- A node that was there before is an earlier version of itself. -/
theorem Persists.at_of_lt (h : g.Persists g') (hn : n.index < g.nodes.size) {a' : Node}
    (ha' : g'.At n a') : ∃ a, g.At n a ∧ a.Keeps a' := by
  have ha : g.At n _ := Array.getElem?_eq_getElem hn
  obtain ⟨b, hb, hk⟩ := h.nodes n _ ha
  cases Option.some.inj (hb.symm.trans ha')
  exact ⟨_, ha, hk⟩

theorem Persists.isObject (h : g.Persists g') (ho : g.IsObject o) : g'.IsObject o := by
  obtain ⟨a, ha, hobj⟩ := ho
  obtain ⟨a', ha', hk⟩ := h.nodes o a ha
  exact ⟨a', ha', hk.isObject.trans hobj⟩

theorem Persists.isObject_of_lt (h : g.Persists g') (hn : o.index < g.nodes.size)
    (ho : g'.IsObject o) : g.IsObject o := by
  obtain ⟨a', ha', hobj⟩ := ho
  obtain ⟨a, ha, hk⟩ := h.at_of_lt hn ha'
  exact ⟨a, ha, hk.isObject.symm.trans hobj⟩

theorem Persists.isFunction (h : g.Persists g') (ho : g.IsFunction o) : g'.IsFunction o := by
  obtain ⟨a, ha, hf⟩ := ho
  obtain ⟨a', ha', hk⟩ := h.nodes o a ha
  exact ⟨a', ha', hk.isFunction.trans hf⟩

theorem Persists.isFunction_of_lt (h : g.Persists g') (hn : o.index < g.nodes.size)
    (ho : g'.IsFunction o) : g.IsFunction o := by
  obtain ⟨a', ha', hf⟩ := ho
  obtain ⟨a, ha, hk⟩ := h.at_of_lt hn ha'
  exact ⟨a, ha, hk.isFunction.symm.trans hf⟩

theorem Persists.isFieldRef_of_lt (h : g.Persists g') (hn : n.index < g.nodes.size)
    (hr : g'.IsFieldRef n b key) : g.IsFieldRef n b key := by
  obtain ⟨a', ha', hkind⟩ := hr
  obtain ⟨a, ha, hk⟩ := h.at_of_lt hn ha'
  rw [← Node.fieldRef?_eq_some, hk.fieldRef?, Node.fieldRef?_eq_some] at hkind
  exact ⟨a, ha, hkind⟩

theorem Persists.isField (h : g.Persists g') (hx : g.IsField x o key) : g'.IsField x o key := by
  obtain ⟨a, ha, hl⟩ := hx
  obtain ⟨a', ha', hk⟩ := h.nodes o a ha
  exact ⟨a', ha', hk.fields key x hl⟩

end Persists

variable {g g' : FlowGraph}

theorem Adds.persists (h : g.Adds g') : g.Persists g' where
  nodes n a ha := by
    obtain ⟨a', ha', hk, -⟩ := h.keeps n a ha
    exact ⟨a', ha', hk⟩
  edge? i e he := by rwa [edge?, h.edges]
  addresses := by simp only [h.addressEdges, List.prefix_rfl]

theorem persists_withEdge {a b : NodeId} {k : EdgeKind} {stmt : Option StmtId} :
    g.Persists (g.withEdge a b k stmt) where
  nodes _ a ha := ⟨a, ha, .refl a⟩
  edge? i e he := edge?_withEdge.2 (.inl he)
  addresses := by
    unfold withEdge
    dsimp only
    split
    · simp
    · exact List.prefix_rfl

theorem persists_mapPointer {n : NodeId} {f : PointerInfo → PointerInfo} :
    g.Persists (g.modifyNode n (·.mapPointer f)) where
  nodes m a ha := ⟨_, at_modifyNode.2 ⟨a, ha, rfl⟩, by
    split
    · exact (Node.mapPointer_keeps a f).1
    · exact .refl a⟩
  edge? _ _ h := h
  addresses := List.prefix_rfl

/-- `g'` has everything that `g` has, and the same node for each location. -/
structure Extends (g g' : FlowGraph) : Prop extends g.Persists g' where
  interned : ∀ (c : ContextId) (l : Location) n, g.interned[(c, l)]? = some n →
    g'.interned[(c, l)]? = some n
  calls : ∀ n a, g.At n a → ∃ a', g'.At n a' ∧ a.KeepsCalls a'

theorem Extends.refl (g : FlowGraph) : g.Extends g :=
  ⟨.refl g, fun _ _ _ h => h, fun _ a ha => ⟨a, ha, .of_pointer? rfl⟩⟩

theorem Extends.trans (h : g₁.Extends g₂) (h' : g₂.Extends g₃) : g₁.Extends g₃ where
  toPersists := h.toPersists.trans h'.toPersists
  interned c l n hn := h'.interned c l n (h.interned c l n hn)
  calls n a ha := by
    obtain ⟨b, hb, hab⟩ := h.calls n a ha
    obtain ⟨c, hc, hbc⟩ := h'.calls n b hb
    exact ⟨c, hc, hab.trans hbc⟩

/-- A call through a value stays attached to it. -/
theorem Extends.attaches (h : g.Extends g') {n : NodeId} {d : SiteId × ContextId}
    (hd : g.Attaches (·.dynamicCalls) n d) : g'.Attaches (·.dynamicCalls) n d := by
  obtain ⟨a, info, ha, hinfo, hd⟩ := hd
  obtain ⟨a', ha', hk⟩ := h.calls n a ha
  obtain ⟨info', hinfo', hcalls, -⟩ := hk info hinfo
  exact ⟨a', info', ha', hinfo', hcalls hd⟩

/-- What stands for an object is one, and so is what an address edge comes from. -/
structure Ordered (s : Scene) (g : FlowGraph) : Prop where
  kinds : ∀ n a, g.At n a → a.location.Fixes a.kind.shape
  objects : ∀ (c : ContextId) (l : Location) n, g.interned[(c, l)]? = some n → l.IsObject s →
    g.IsObject n
  addresses : ∀ i ∈ g.addressEdges, ∃ e, g.edge? i = some e ∧ g.IsObject e.source

/-- One change of a flow graph. -/
inductive Change (s : Scene) (g : FlowGraph) : FlowGraph → Prop where
  | node {a : Node} : g.interned[(a.context, a.location)]? = none →
      (a.location.IsObject s → a.isObject = true) → a.location.Fixes a.kind.shape →
      Change s g (g.withNode a)
  | alter {n : NodeId} {f : Node → Node} : (∀ a, g.At n a → a.Keeps (f a)) →
      (∀ a : Node, a.KeepsCalls (f a)) → Change s g (g.modifyNode n f)
  | edge {a b : NodeId} {k : EdgeKind} {stmt : Option StmtId} : (k = .address → g.IsObject a) →
      Change s g (g.withEdge a b k stmt)
  | index (instances : Std.TreeMap ValueId (Std.TreeMap ContextId NodeId))
      (representatives : List (Place × ValueId)) : Change s g { g with instances, representatives }

/-- Any number of changes. -/
abbrev Changes (s : Scene) : FlowGraph → FlowGraph → Prop := Relation.ReflTransGen (Change s)

variable {s : Scene} {g g' : FlowGraph}

theorem Change.extends (h : g.Change s g') : g.Extends g' := by
  cases h with
  | @node a hnew _ _ =>
    have hat : ∀ n b, g.At n b → (g.withNode a).At n b := fun n b hb => at_withNode.2 (.inl hb)
    refine ⟨⟨fun n b hb => ⟨b, hat n b hb, .refl b⟩, fun _ _ h => h, List.prefix_rfl⟩,
      fun c l n hn => ?_, fun n b hb => ⟨b, hat n b hb, .of_pointer? rfl⟩⟩
    have hne : (a.context, a.location) ≠ (c, l) := by
      intro heq
      rw [heq, hn] at hnew
      cases hnew
    rwa [withNode, getElem?_insert, if_neg hne]
  | @alter m f hkeeps hcalls =>
    have hat : ∀ n b, g.At n b → (g.modifyNode m f).At n (if n = m then f b else b) :=
      fun n b hb => at_modifyNode.2 ⟨b, hb, rfl⟩
    refine ⟨⟨fun n b hb => ⟨_, hat n b hb, ?_⟩, fun _ _ h => h, List.prefix_rfl⟩, fun _ _ _ h => h,
      fun n b hb => ⟨_, hat n b hb, ?_⟩⟩
    · split
      · next heq => exact hkeeps b (heq ▸ hb)
      · exact .refl b
    · split
      · exact hcalls b
      · exact .of_pointer? rfl
  | edge =>
    exact ⟨persists_withEdge, fun _ _ _ h => h, fun _ a ha => ⟨a, ha, .of_pointer? rfl⟩⟩
  | index =>
    exact ⟨⟨fun n a ha => ⟨a, ha, .refl a⟩, fun _ _ h => h, List.prefix_rfl⟩, fun _ _ _ h => h,
      fun _ a ha => ⟨a, ha, .of_pointer? rfl⟩⟩

theorem Changes.extends (h : g.Changes s g') : g.Extends g' := by
  induction h with
  | refl => exact .refl g
  | tail _ hchange ih => exact ih.trans hchange.extends

theorem Changes.isObject (h : g.Changes s g') {o : NodeId} (ho : g.IsObject o) : g'.IsObject o :=
  h.extends.isObject ho

theorem Change.ordered (h : g.Change s g') (hg : g.Ordered s) : g'.Ordered s := by
  have hobject : ∀ {o}, g.IsObject o → g'.IsObject o := h.extends.isObject
  have haddresses : ∀ i ∈ g.addressEdges, ∃ e, g'.edge? i = some e ∧ g'.IsObject e.source := by
    intro i hi
    obtain ⟨e, he, ho⟩ := hg.addresses i hi
    exact ⟨e, h.extends.edge? i e he, hobject ho⟩
  cases h with
  | @node a _ hobj hfixed =>
    refine ⟨fun n b hb => ?_, fun c l n hn hl => ?_, haddresses⟩
    · rcases at_withNode.1 hb with hb | ⟨-, rfl⟩
      · exact hg.kinds n b hb
      · exact hfixed
    simp only [withNode, getElem?_insert] at hn
    split at hn
    · next heq =>
      cases heq
      cases hn
      exact ⟨a, at_withNode.2 (.inr ⟨rfl, rfl⟩), hobj hl⟩
    · exact hobject (hg.objects c l n hn hl)
  | @alter m f hkeeps _ =>
    refine ⟨fun n b hb => ?_, fun c l n hn hl => hobject (hg.objects c l n hn hl), haddresses⟩
    obtain ⟨a, ha, rfl⟩ := at_modifyNode.1 hb
    split
    · next hn =>
      have hkeep := hkeeps a (hn ▸ ha)
      rw [hkeep.location, hkeep.shape]
      exact hg.kinds n a ha
    · exact hg.kinds n a ha
  | @edge a b k stmt hsource =>
    refine ⟨hg.kinds, fun c l n hn hl => hobject (hg.objects c l n hn hl), fun i hi => ?_⟩
    simp only [withEdge] at hi
    split at hi
    · next hk =>
      rcases Array.mem_push.1 hi with hi | rfl
      · exact haddresses i hi
      · exact ⟨_, edge?_withEdge.2 (.inr ⟨rfl, rfl⟩), hobject (hsource hk)⟩
    · exact haddresses i hi
  | index =>
    exact ⟨hg.kinds, fun c l n hn hl => hobject (hg.objects c l n hn hl), haddresses⟩

theorem ordered_empty : Ordered s {} := ⟨by simp [At], by simp, by simp⟩

/-- What adding to a graph keeps, also where it fails. -/
def growth (s : Scene) : Guard Fault FlowGraph where
  Holds := Ordered s
  Later := Changes s
  Fails _ _ := True
  refl _ := .refl
  trans := .trans

end FlowGraph

end PointsTo
