import PointsTo.Proofs.Flow.Changes

/-! The ways to look up the nodes of a value agree with each other and with the way they are
made. -/
namespace PointsTo.FlowGraph

variable {s : Scene} {g g' : FlowGraph} {c : ContextId} {v : ValueId} {n : NodeId}

section Found

/-! A value that has a node is found, and nothing is made for it. -/

theorem lift_bind_run {α β : Type} {x : Except Fault α} {a : α} (hx : x = .ok a)
    (f : α → Growing β) : (liftM x >>= f) g = f a g := by
  rw [hx]
  rfl

/-- The value that stands for a place names it. -/
theorem Consistent.place?_lookup (h : g.Consistent s) {p : Place}
    (hp : s.place? v = .ok (some p)) :
    s.place? ((g.representatives.lookup p).getD v) = .ok (some p) := by
  cases hl : g.representatives.lookup p with
  | some w => exact h.representatives p w hl
  | none => exact hp

/-- A value with a node stands for its place. -/
theorem Consistent.represents (h : g.Consistent s) {p : Place} (hp : s.place? v = .ok (some p))
    (hn : g.interned[(c, Location.value v)]? = some n) :
    g.representatives.lookup p = some v ∧ (p.isShared = true → c = .empty) := by
  obtain ⟨a, ha, rfl, hv⟩ := (h.interned ..).1 hn
  exact h.places n a v p ha hv hp

/-- A value with a node is known under its name already. -/
theorem settle_of_known (h : g.Consistent s) {k : ContextId × ValueId}
    (hk : g.known s c v = .ok k) (hn : g.interned[(k.1, Location.value k.2)]? = some n) :
    Growing.settle s c v g = .ok k g := by
  obtain ⟨p?, hp, rfl⟩ := known_eq_ok.1 hk
  rw [Growing.settle, lift_bind_run hp]
  cases p? with
  | none => rfl
  | some p =>
    have hlookup := (h.represents (h.place?_lookup hp) hn).1
    dsimp only
    rw [modifyGet_bind_run, hlookup]
    rfl

theorem intern_of_interned {l : Location} {stmt : Option StmtId} {kind : NodeKind}
    (hn : g.interned[(c, l)]? = some n) : Growing.intern c l stmt kind g = .ok n g := by
  rw [Growing.intern, modifyGet_run, hn]

/-- What is looked up is what would be made, and the graph stays as it is. -/
theorem value_of_nodeOf? (h : g.Consistent s) (stmt : Option StmtId)
    (hn : g.nodeOf? s c v = .ok (some n)) : Growing.value s c v stmt g = .ok n g := by
  obtain ⟨a, ha, hn⟩ := nodeOf?_eq_some.1 hn
  rw [Growing.value, Growing.valueWithin, lift_bind_run ha]
  cases hglobal : a.isGlobalObject with
  | true =>
    rw [hglobal, if_pos rfl] at hn
    rw [if_pos rfl]
    exact intern_of_interned hn
  | false =>
    rw [hglobal, if_neg Bool.false_ne_true] at hn
    obtain ⟨⟨d, w⟩, hk, hn⟩ := hn
    rw [if_neg Bool.false_ne_true, bind_run_of_ok (settle_of_known h hk hn)]
    dsimp only
    rw [get_bind_run, hn]
    rfl

/-- A node that was there before had the same name. -/
theorem Adds.interned_of_lt (hadds : g.Adds g') (h : g.Consistent s) (h' : g'.Consistent s)
    {l : Location} (hlt : n.index < g.nodes.size) (hn : g'.interned[(c, l)]? = some n) :
    g.interned[(c, l)]? = some n := by
  obtain ⟨a', ha', hc, hl⟩ := (h'.interned ..).1 hn
  obtain ⟨a, ha, hkeep⟩ := hadds.persists.at_of_lt hlt ha'
  exact (h.interned ..).2 ⟨a, ha, hkeep.context.symm.trans hc, hkeep.location.symm.trans hl⟩

/-- A value whose node was there before was found before. -/
theorem Adds.nodeOf?_of_lt (hadds : g.Adds g') (h : g.Consistent s) (h' : g'.Consistent s)
    (hlt : n.index < g.nodes.size) (hn : g'.nodeOf? s c v = .ok (some n)) :
    g.nodeOf? s c v = .ok (some n) := by
  obtain ⟨a, ha, hn⟩ := nodeOf?_eq_some.1 hn
  refine nodeOf?_eq_some.2 ⟨a, ha, ?_⟩
  split
  · next hglobal =>
    rw [if_pos hglobal] at hn
    exact hadds.interned_of_lt h h' hlt hn
  next hglobal =>
  rw [if_neg hglobal] at hn
  obtain ⟨k, hk, hn⟩ := hn
  have hold := hadds.interned_of_lt h h' hlt hn
  refine ⟨k, ?_, hold⟩
  obtain ⟨p?, hp, rfl⟩ := known_eq_ok.1 hk
  refine known_eq_ok.2 ⟨p?, hp, ?_⟩
  cases p? with
  | none => rfl
  | some p =>
    -- the value with the node stands for its place in both graphs
    simp only [(h.represents (h'.place?_lookup hp) hold).1, Option.getD_some]

/-- A value has a node exactly if no node has to be made for it. -/
theorem nodeOf?_iff_value (h : g.Consistent s) (stmt : Option StmtId) :
    g.nodeOf? s c v = .ok (some n) ↔
      ∃ g', Growing.value s c v stmt g = .ok n g' ∧ g'.nodes.size = g.nodes.size := by
  constructor
  · intro hn
    exact ⟨g, value_of_nodeOf? h stmt hn, rfl⟩
  · rintro ⟨g', hrun, hsize⟩
    obtain ⟨hgrows, hn, -⟩ := (ensures_value h).1 hrun
    refine hgrows.toAdds.nodeOf?_of_lt h hgrows.consistent ?_ hn
    rw [← hsize]
    exact nodeOf?_lt_size hgrows.consistent hn

end Found

section Instances

/-! The nodes of a value are those of the one value that stands for its place. -/

variable {l : List (ContextId × NodeId)}

/-- The value that stands for `v` under all contexts. -/
theorem nodesOf_eq_ok : g.nodesOf s v = .ok l ↔ ∃ k, g.known s .empty v = .ok k ∧
    l = ((g.instances[k.2]?).getD ∅).toList := by
  unfold nodesOf
  cases g.known s .empty v with
  | error f => simp [bind, Except.bind]
  | ok k => simp [bind, Except.bind, pure, Except.pure, @eq_comm _ l]

theorem nodesOf_returns {p? : Option Place} (hp : s.place? v = .ok p?) :
    ∃ l, g.nodesOf s v = .ok l :=
  ⟨_, nodesOf_eq_ok.2 ⟨_, known_eq_ok.2 ⟨p?, hp, rfl⟩, rfl⟩⟩

theorem mem_instances {w : ValueId} :
    (c, n) ∈ ((g.instances[w]?).getD ∅).toList ↔ g.Lists w c n := by
  unfold Lists
  cases g.instances[w]? with
  | none => simp
  | some nodes => simp [Std.TreeMap.mem_toList_iff_getElem?_eq_some]

/-- A node is listed under the context that it is looked up with. -/
theorem nodeOf?_of_mem_nodesOf (h : g.Consistent s) {a : Value} (ha : s.value v = .ok a)
    (hglobal : a.isGlobalObject = false) (hl : g.nodesOf s v = .ok l) (hn : (c, n) ∈ l) :
    g.nodeOf? s c v = .ok (some n) := by
  obtain ⟨k, hk, rfl⟩ := nodesOf_eq_ok.1 hl
  have hn := h.instances _ _ _ (mem_instances.1 hn)
  refine nodeOf?_eq_some.2 ⟨a, ha, ?_⟩
  rw [hglobal, if_neg Bool.false_ne_true]
  obtain ⟨p?, hp, rfl⟩ := known_eq_ok.1 hk
  refine ⟨_, known_eq_ok.2 ⟨p?, hp, rfl⟩, ?_⟩
  cases p? with
  | none => exact hn
  | some p =>
    -- what all contexts share lives in the empty one
    have hc : (if p.isShared = true then ContextId.empty else c) = c := by
      split
      · next hshared => exact ((h.represents (h.place?_lookup hp) hn).2 hshared).symm
      · rfl
    dsimp only
    rw [hc]
    exact hn

/-- Every node that a value has under some context is listed. -/
theorem mem_nodesOf_of_nodeOf? (hi : g.Indexed) {a : Value} (ha : s.value v = .ok a)
    (hglobal : a.isGlobalObject = false) (hl : g.nodesOf s v = .ok l)
    (hn : g.nodeOf? s c v = .ok (some n)) : ∃ d, (d, n) ∈ l := by
  obtain ⟨k₀, hk₀, rfl⟩ := nodesOf_eq_ok.1 hl
  obtain ⟨b, hb, hn⟩ := nodeOf?_eq_some.1 hn
  cases Except.ok.inj (ha.symm.trans hb)
  rw [hglobal, if_neg Bool.false_ne_true] at hn
  obtain ⟨k, hk, hn⟩ := hn
  have hsame : k.2 = k₀.2 := by
    obtain ⟨p?, hp, rfl⟩ := known_eq_ok.1 hk
    obtain ⟨q?, hq, rfl⟩ := known_eq_ok.1 hk₀
    cases Except.ok.inj (hp.symm.trans hq)
    cases p? <;> rfl
  exact ⟨k.1, mem_instances.2 (hsame ▸ hi _ _ _ hn)⟩

end Instances

section GlobalObject

variable {stmt : Option StmtId} {kind : NodeKind} {o : NodeId}

/-! A variable that stands for the global object has no node of its own. -/

/-- Whether `l` is no variable that stands for the global object. -/
def Apart (s : Scene) (l : Location) : Prop :=
  ∀ v a, l = .value v → s.value v = .ok a → a.isGlobalObject = false

/-- No variable that stands for the global object gets a node. -/
abbrev Spares (s : Scene) : FlowGraph → FlowGraph → Prop := Interns fun _ l => Apart s l

/-- A value that names a place is no variable. -/
theorem apart_of_place? {p : Place} (hp : s.place? v = .ok (some p)) : Apart s (.value v) := by
  rintro _ a ⟨⟩ ha
  cases a <;> first
    | rfl
    | simp [Scene.place?, Scene.globalProperty?, ha, bind, Except.bind, pure, Except.pure] at hp

theorem spares_intern {l : Location} (hl : Apart s l) :
    Ensures (Growing.intern c l stmt kind) g fun _ g' => Spares s g g' := by
  refine ensures_intern.mono ?_
  rintro n g' (⟨-, rfl⟩ | ⟨-, -, rfl⟩)
  · exact .refl g'
  · refine (interns_withNode _).mono ?_
    rintro _ _ ⟨-, rfl⟩
    exact hl

theorem spares_update {f : Node → Node} :
    Ensures (Growing.update n f) g fun _ g' => Spares s g g' :=
  ensures_modify (.refl g)

theorem spares_introduce (hv : Apart s (.value v)) :
    Ensures (Growing.introduce c v stmt kind) g fun _ g' => Spares s g g' := by
  refine ensures_bind (spares_intern hv) fun n g₁ h₁ => ?_
  extract_lets finish
  have hfinish : ∀ g₂, Spares s g g₂ → Ensures (finish ()) g₂ fun _ g' => Spares s g g' :=
    fun g₂ h₂ => ensures_modify_bind (ensures_pure h₂)
  split
  · exact ensures_bind spares_update fun _ g₂ h₂ => hfinish g₂ (h₁.trans h₂)
  · exact hfinish g₁ h₁

theorem spares_valueWithin {fuel : Nat} (h : g.Consistent s) :
    Ensures (Growing.valueWithin s fuel c v stmt) g fun _ g' => Spares s g g' := by
  induction fuel generalizing g c v with
  | zero => exact ensures_throw id
  | succ fuel ih =>
    rw [Growing.valueWithin_succ]
    refine ensures_lift_bind fun a ha => ?_
    split
    · exact spares_intern nofun
    next hglobal =>
    refine ensures_bind (ensures_settle h) ?_
    rintro ⟨d, w⟩ g₁ ⟨hgrows, -, -, hinterned, hsettles⟩
    have hw : Apart s (.value w) := by
      rcases hsettles with hsame | ⟨p, -, hp, -⟩
      · cases hsame
        rintro _ b ⟨⟩ hb
        cases Except.ok.inj (ha.symm.trans hb)
        exact Bool.eq_false_iff.2 hglobal
      · exact apart_of_place? hp
    have hold : Spares s g g₁ := fun c l n hn => .inl (hinterned ▸ hn)
    suffices hnew : Ensures _ g₁ fun _ g' => Spares s g₁ g' from
      hnew.mono fun _ _ h₂ => hold.trans h₂
    refine ensures_get_bind ?_
    split
    · exact ensures_pure (.refl g₁)
    refine ensures_lift_bind fun p? _ => ?_
    split
    · exact ensures_bind (ih hgrows.consistent) fun _ g₂ h₂ =>
        (spares_introduce hw).mono fun _ _ h₃ => h₂.trans h₃
    · exact ensures_lift_bind fun kind _ => spares_introduce hw

/-- A new node that another one lists. -/
theorem spares_listed {l : Location} {f : NodeId → Node → Node} (hl : Apart s l) :
    Ensures (Growing.intern c l stmt kind >>= fun x => Growing.update o (f x) >>= fun _ => pure x) g
      fun _ g' => Spares s g g' :=
  ensures_bind (spares_intern hl) fun _ _ h₁ =>
    ensures_bind spares_update fun _ _ h₂ => ensures_pure (h₁.trans h₂)

theorem spares_objectField {key : FieldKey} :
    Ensures (Growing.objectField o key) g fun _ g' => Spares s g g' := by
  refine ensures_node_bind fun a _ => ?_
  split
  · exact ensures_pure (.refl g)
  · exact spares_listed nofun

theorem spares_fieldOf {r : NodeId} :
    Ensures (Growing.fieldOf r o) g fun _ g' => Spares s g g' := by
  refine ensures_node_bind fun a _ => ?_
  split
  · exact ensures_bind spares_objectField fun _ _ h₁ => ensures_pure h₁
  · exact ensures_pure (.refl g)

theorem spares_element : Ensures (Growing.element o) g fun _ g' => Spares s g g' :=
  ensures_bind spares_objectField fun _ _ h₁ =>
    ensures_bind spares_update fun _ _ h₂ => ensures_pure (h₁.trans h₂)

theorem spares_fieldRef {b : NodeId} {key : FieldKey} :
    Ensures (Growing.fieldRef b key) g fun _ g' => Spares s g g' := by
  refine ensures_node_bind fun a _ => ensures_get_bind ?_
  split
  · exact ensures_pure (.refl g)
  · exact spares_listed nofun

end GlobalObject

/-- What the look-ups rely on. -/
structure Searchable (s : Scene) (g : FlowGraph) : Prop where
  consistent : g.Consistent s
  indexed : g.Indexed
  apart : ∀ (c : ContextId) (l : Location) n, g.interned[(c, l)]? = some n → Apart s l

theorem Searchable.grows {α : Type} {m : Growing α} (h : g.Searchable s)
    (hgrows : Ensures m g fun _ g' => g.Grows s g')
    (hspares : Ensures m g fun _ g' => Spares s g g') :
    Ensures m g fun _ g' => g'.Searchable s :=
  (hgrows.and hspares).mono fun _ _ ⟨hg, hs⟩ => ⟨hg.consistent, hg.indexed h.indexed,
    fun c l n hn => (hs c l n hn).elim (h.apart c l n) id⟩

theorem Makes.searchable {α : Type} {m : Growing α} (hm : Makes s m) (h : g.Searchable s) :
    Ensures m g fun _ g' => g'.Searchable s := by
  have hc := h.consistent
  induction hm generalizing g with
  | pure a => exact ensures_pure h
  | bind _ _ ihm ihf =>
    exact ensures_bind (ihm h h.consistent) fun a g₁ h₁ => ihf a h₁ h₁.consistent
  | value c v stmt =>
    exact h.grows ((ensures_value hc).mono fun _ _ h => h.1) (spares_valueWithin hc)
  | globalObject =>
    exact h.grows ((ensures_globalObject hc).mono fun _ _ h => h.1) (spares_intern nofun)
  | objectField object key =>
    exact h.grows ((ensures_objectField hc).mono fun _ _ h => h.1) spares_objectField
  | fieldOf fieldRef object =>
    exact h.grows ((ensures_fieldOf hc).mono fun _ _ h => h.1) spares_fieldOf
  | element object => exact h.grows ((ensures_element hc).mono fun _ _ h => h.1) spares_element
  | fieldRef base key => exact h.grows (ensures_fieldRef hc) spares_fieldRef
  | boundFunction origin method binding receiver =>
    exact h.grows (ensures_boundFunction hc) (spares_intern nofun)
  | synthetic c object owner => exact h.grows (ensures_synthetic hc) (spares_intern nofun)
  | temporary c stmt =>
    exact h.grows ((ensures_temporary hc).mono fun _ _ h => h.1) (spares_intern nofun)
  | slot space key => exact h.grows (ensures_slot hc) (spares_intern nofun)
  | mapPointer n f => exact ensures_modify ⟨hc.mapPointer n f, h.indexed, h.apart⟩
  | addEdge a b k stmt =>
    refine ensures_addEdge.mono ?_
    rintro _ g' (⟨-, -, rfl⟩ | ⟨-, -, ha, hb, rfl⟩)
    · exact h
    · exact ⟨hc.withEdge ha hb, h.indexed, h.apart⟩

/-- The nodes of a value are all those that are found for it, unless it stands for the global
object. -/
theorem Searchable.mem_nodesOf_iff (h : g.Searchable s) {l : List (ContextId × NodeId)} {a : Value}
    (ha : s.value v = .ok a) (hl : g.nodesOf s v = .ok l) :
    (∃ c, (c, n) ∈ l) ↔ a.isGlobalObject = false ∧ ∃ c, g.nodeOf? s c v = .ok (some n) := by
  constructor
  · rintro ⟨c, hn⟩
    have hglobal : a.isGlobalObject = false := by
      obtain ⟨k, hk, rfl⟩ := nodesOf_eq_ok.1 hl
      have hapart := h.apart _ _ _ (h.consistent.instances _ _ _ (mem_instances.1 hn))
      obtain ⟨p?, hp, rfl⟩ := known_eq_ok.1 hk
      cases p? with
      | none => exact hapart v a rfl ha
      | some p => exact apart_of_place? hp v a rfl ha
    exact ⟨hglobal, c, nodeOf?_of_mem_nodesOf h.consistent ha hglobal hl hn⟩
  · rintro ⟨hglobal, c, hn⟩
    exact mem_nodesOf_of_nodeOf? h.indexed ha hglobal hl hn

theorem Made.searchable (h : Made s g) : g.Searchable s := by
  obtain ⟨m, hm, hrun⟩ := h
  exact (hm.searchable ⟨.empty s, by simp [Indexed], by simp⟩).1 hrun

end PointsTo.FlowGraph
