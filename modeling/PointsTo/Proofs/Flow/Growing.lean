import PointsTo.Proofs.Flow.Nodes

/-! What each of the steps does that add nodes to a flow graph. -/
namespace PointsTo.FlowGraph

variable {s : Scene} {g g' g₁ g₂ g₃ : FlowGraph} {P : ContextId → Location → Prop} {a : Node}
  {b o n : NodeId} {key : FieldKey} {v : ValueId} {l : Location} {stmt : Option StmtId}
  {kind : NodeKind}

/-- All nodes of values are listed as their instances. -/
def Indexed (g : FlowGraph) : Prop :=
  ∀ (c : ContextId) (v : ValueId) n, g.interned[(c, Location.value v)]? = some n → g.Lists v c n

/-- More nodes in tables that agree with them. -/
structure Raises (s : Scene) (g g' : FlowGraph) : Prop extends g.Adds g' where
  consistent : g'.Consistent s

/-- More nodes, listed in tables that still agree with them. -/
structure Grows (s : Scene) (g g' : FlowGraph) : Prop extends g.Raises s g' where
  indexed : g.Indexed → g'.Indexed

theorem Grows.refl (h : g.Consistent s) : Grows s g g := ⟨⟨.refl g, h⟩, id⟩

theorem Grows.trans (h : Grows s g₁ g₂) (h' : Grows s g₂ g₃) : Grows s g₁ g₃ :=
  ⟨⟨h.toAdds.trans h'.toAdds, h'.consistent⟩, h'.indexed ∘ h.indexed⟩

/-- All locations that have a node in `g'` but not in `g` satisfy `P`. -/
def Interns (P : ContextId → Location → Prop) (g g' : FlowGraph) : Prop :=
  ∀ c l n, g'.interned[(c, l)]? = some n → g.interned[(c, l)]? = some n ∨ P c l

theorem Interns.refl (g : FlowGraph) : Interns P g g :=
  fun _ _ _ hn => .inl hn

theorem Interns.trans (h : Interns P g₁ g₂) (h' : Interns P g₂ g₃) : Interns P g₁ g₃ :=
  fun c l n hn => (h' c l n hn).elim (h c l n) .inr

theorem Interns.mono {Q : ContextId → Location → Prop} (h : Interns P g g')
    (hPQ : ∀ c l, P c l → Q c l) : Interns Q g g' :=
  fun c l n hn => (h c l n hn).imp_right (hPQ c l)

/-- A node that is not the one of a value need not be listed. -/
theorem Raises.grows (h : Raises s g g')
    (hold : ∀ (c : ContextId) (v : ValueId) n, g'.interned[(c, Location.value v)]? = some n →
      g.interned[(c, Location.value v)]? = some n) : Grows s g g' :=
  ⟨h, fun hi c v n hn => h.toAdds.instances v c n (hi c v n (hold c v n hn))⟩

theorem interns_withNode (a : Node) :
    Interns (fun c l => c = a.context ∧ l = a.location) g (g.withNode a) := by
  intro c l n hn
  simp only [withNode, getElem?_insert] at hn
  split at hn
  · next h =>
    cases h
    exact .inr ⟨rfl, rfl⟩
  · exact .inl hn

theorem not_registers_of_shape (h : a.kind.shape = a.kind) (d : SiteId × ContextId) :
    ¬ a.Registers d := by
  rintro ⟨info, hi, hd⟩
  have hinfo : info = {} := by
    unfold Node.pointer? at hi
    split at hi <;> simp_all [NodeKind.shape]
  simp [hinfo] at hd

theorem raises_plain (h : g.Consistent s) (hf : Fits s g a) (hbare : a.kind.shape = a.kind)
    (hkind : ∀ n key, a.kind ≠ .fieldRef n key) (hloc : ∀ n key, a.location ≠ .field n key) :
    Raises s g (g.withNode a) := by
  have hg := gets_plain hf.interned hkind hloc
  refine ⟨hg.adds (fun n x y hx hy => ?_) ?_, h.gets hg (by simpa using hf)⟩
  · rw [← modifyNode_id (g.withNode a) n] at hy
    exact pointer?_withNode_modifyNode (f := id) (fun _ => rfl) hx hy
  · simpa using not_registers_of_shape hbare

theorem raises_fieldRef (h : g.Consistent s) (key : FieldKey) (hf : Fits s g a)
    (hkind : a.kind = .fieldRef b key) (hloc : ∀ n key, a.location ≠ .field n key) :
    Raises s g ((g.withNode a).modifyNode b fun x =>
      { x with fieldRefs := x.fieldRefs.push ⟨g.nodes.size⟩ }) := by
  have hg := gets_fieldRef hf.interned (hf.base b key hkind) hkind hloc
  refine ⟨hg.adds (fun n x y hx hy => ?_) ?_, h.gets hg (by simpa using hf)⟩
  · exact pointer?_withNode_modifyNode (f := fun x =>
      { x with fieldRefs := x.fieldRefs.push ⟨g.nodes.size⟩ }) (fun _ => rfl) hx hy
  · simpa using not_registers_of_shape (by rw [hkind]; rfl)

theorem grows_field (h : g.Consistent s) {x : Node} (hf : Fits s g a) (ho : g.At o x)
    (hx : x.fields.lookup key = none) (hkind : a.kind = .objectField)
    (hloc : a.location = .field o key) : Grows s g ((g.withNode a).modifyNode o fun x =>
      { x with fields := (key, ⟨g.nodes.size⟩) :: x.fields }) := by
  have hg := gets_field hf.interned ho hx (by simp [hkind]) hloc
  refine Raises.grows ⟨hg.adds (fun n y z hy hz => ?_) ?_, h.gets hg (by simpa using hf)⟩ ?_
  · exact pointer?_withNode_modifyNode (f := fun x =>
      { x with fields := (key, ⟨g.nodes.size⟩) :: x.fields }) (fun _ => rfl) hy hz
  · simpa using not_registers_of_shape (by rw [hkind]; rfl)
  · intro c v n hn
    refine (interns_withNode a c _ n hn).resolve_right ?_
    rintro ⟨-, h⟩
    simp [hloc] at h

/-- A change of one node that keeps what it lists and what is attached to it. -/
theorem grows_modifyNode (h : g.Consistent s) {f : Node → Node}
    (hf : ∀ a, g.At n a → a.Keeps (f a) ∧ (∀ r ∈ (f a).fieldRefs, r ∈ a.fieldRefs) ∧
      (f a).fields = a.fields) (hp : ∀ a, (f a).pointer? = a.pointer?) :
    Grows s g (g.modifyNode n f) := by
  have hg := gets_modifyNode hf
  refine Raises.grows ⟨hg.adds (fun m a a' ha ha' => ?_) (by simp), h.gets hg (by simp)⟩
    fun _ _ _ hn => hn
  obtain ⟨b, hb, rfl⟩ := at_modifyNode.1 ha'
  cases Option.some.inj (ha.symm.trans hb)
  split
  · exact hp a
  · rfl

/-- The node of a value is listed under its context, where no other node was listed. -/
theorem Raises.listed (h : Raises s g g') {c : ContextId}
    (hn : g'.interned[(c, Location.value v)]? = some n)
    (hold : Interns (fun c' l => c' = c ∧ l = .value v) g g') : Grows s g { g' with
      instances := g'.instances.insert v (((g'.instances[v]?).getD ∅).insert c n) } := by
  have hc := h.consistent
  have hnew : ∀ w d x, Lists { g' with
      instances := g'.instances.insert v (((g'.instances[v]?).getD ∅).insert c n) } w d x ↔
      (w = v ∧ d = c ∧ x = n) ∨ (¬ (w = v ∧ d = c) ∧ g'.Lists w d x) := by
    intro w d x
    simp only [Lists, getElem?_insert]
    by_cases hw : v = w
    · subst hw
      by_cases hd : c = d
      · simp [hd, @eq_comm _ x]
      · cases ht : g'.instances[v]? <;> simp [hd, getElem?_insert, Ne.symm hd]
    · simp [hw, Ne.symm hw]
  have hkeep : ∀ w d x, g.Lists w d x → Lists { g' with
      instances := g'.instances.insert v (((g'.instances[v]?).getD ∅).insert c n) } w d x := by
    intro w d x hx
    have hx := h.toAdds.instances w d x hx
    by_cases hwd : w = v ∧ d = c
    · obtain ⟨rfl, rfl⟩ := hwd
      have hold := hc.instances _ _ _ hx
      rw [hn] at hold
      exact (hnew ..).2 (.inl ⟨rfl, rfl, (Option.some.inj hold).symm⟩)
    · exact (hnew ..).2 (.inr ⟨hwd, hx⟩)
  refine ⟨⟨⟨h.edges, h.addressEdges, h.representatives, hkeep, h.keeps, h.fresh⟩, ?_⟩,
    fun hi d w x hx => ?_⟩
  · obtain ⟨hout, hin, haddresses, hends⟩ := hc.tables
    refine ⟨⟨hout, hin, haddresses, hends⟩, hc.interned, hc.fieldRefs, hc.bases, hc.fields,
      hc.owners, hc.places, hc.representatives, hc.parts, hc.kinds, fun w d x hx => ?_⟩
    rcases (hnew w d x).1 hx with ⟨rfl, rfl, rfl⟩ | ⟨-, hx⟩
    · exact hn
    · exact hc.instances w d x hx
  · rcases hold d _ x hx with hx' | ⟨rfl, hw⟩
    · exact hkeep w d x (hi d w x hx')
    · cases hw
      exact (hnew ..).2 (.inl ⟨rfl, rfl, Option.some.inj (hx.symm.trans hn)⟩)

/-- The node of a location is looked up before one is added. -/
theorem ensures_intern {c : ContextId} : Ensures (Growing.intern c l stmt kind) g fun n g' =>
      (g.interned[(c, l)]? = some n ∧ g' = g) ∨
      (g.interned[(c, l)]? = none ∧ n = ⟨g.nodes.size⟩ ∧
        g' = g.withNode { context := c, location := l, stmt, kind }) := by
  refine ensures_modifyGet ?_
  cases h : g.interned[(c, l)]? with
  | some n => exact .inl ⟨rfl, rfl⟩
  | none => exact .inr ⟨rfl, rfl, rfl⟩

theorem interned_withNode (a : Node) :
    (g.withNode a).interned[(a.context, a.location)]? = some ⟨g.nodes.size⟩ := by
  simp [withNode]

/-- What the node of a value needs if it is not a part of another value. -/
def IsPlain (s : Scene) (g : FlowGraph) (c : ContextId) (v : ValueId) : Prop :=
  ∀ p, s.place? v = .ok (some p) →
    p.isShared = true ∧ g.representatives.lookup p = some v ∧ c = .empty

theorem Fits.plain {c : ContextId} (hi : g.interned[(c, l)]? = none)
    (hkind : ∀ n key, kind ≠ .fieldRef n key) (hloc : ∀ n key, l ≠ .field n key)
    (hval : ∀ v, l = .value v → IsPlain s g c v) (hadmits : l.Admits s kind.shape) :
    Fits s g { context := c, location := l, stmt, kind } where
  interned := hi
  fieldRefs := rfl
  fields := rfl
  base b key h := absurd h (hkind b key)
  owner o key h := absurd h (hloc o key)
  place v p hl hp := by
    obtain ⟨-, hr, hc⟩ := hval v hl p hp
    exact ⟨hr, fun _ => hc⟩
  part v base key hl hp := by
    obtain ⟨hs, -⟩ := hval v hl _ hp
    cases hs
  kind := hadmits

theorem ensures_intern_plain (h : g.Consistent s) {c : ContextId} (hbare : kind.shape = kind)
    (hkind : ∀ n key, kind ≠ .fieldRef n key) (hloc : ∀ n key, l ≠ .field n key)
    (hval : ∀ v, l = .value v → IsPlain s g c v) (hadmits : l.Admits s kind) :
    Ensures (Growing.intern c l stmt kind) g fun n g' =>
      Raises s g g' ∧ g'.interned[(c, l)]? = some n ∧
        Interns (fun c' l' => c' = c ∧ l' = l) g g' := by
  refine ensures_intern.mono ?_
  rintro n g' (⟨hn, rfl⟩ | ⟨hi, rfl, rfl⟩)
  · exact ⟨(Grows.refl h).toRaises, hn, fun _ _ _ hn => .inl hn⟩
  · have hfits : Fits s g { context := c, location := l, stmt, kind } :=
      .plain hi hkind hloc hval (hbare.symm ▸ hadmits)
    exact ⟨raises_plain h hfits hbare hkind hloc, interned_withNode _, interns_withNode _⟩

/-- A location that is neither a value nor a part of an object. -/
theorem ensures_intern_other (h : g.Consistent s) {c : ContextId} (hbare : kind.shape = kind)
    (hkind : ∀ n key, kind ≠ .fieldRef n key) (hloc : ∀ n key, l ≠ .field n key)
    (hval : ∀ v, l ≠ .value v) (hadmits : l.Admits s kind) :
    Ensures (Growing.intern c l stmt kind) g fun n g' =>
      Grows s g g' ∧ g'.interned[(c, l)]? = some n ∧
        Interns (fun c' l' => c' = c ∧ l' = l) g g' := by
  refine (ensures_intern_plain h hbare hkind hloc (fun v hv => absurd hv (hval v)) hadmits).mono ?_
  rintro n g' ⟨hg, hn, hold⟩
  exact ⟨hg.grows fun c' v n' hn' => (hold c' _ n' hn').resolve_right fun hl =>
    hval v hl.2.symm, hn, hold⟩

theorem shape_allocation (owner : String) :
    (Growing.allocation owner).shape = Growing.allocation owner ∧
      ∀ n key, Growing.allocation owner ≠ .fieldRef n key := by
  unfold Growing.allocation
  split <;> simp [NodeKind.shape]

section Plain

variable (h : g.Consistent s) {c : ContextId}
include h

theorem ensures_globalObject : Ensures Growing.globalObject g fun n g' =>
    Grows s g g' ∧ g'.interned[(ContextId.empty, Location.globalObject)]? = some n ∧
      Interns (fun c l => c = .empty ∧ l = .globalObject) g g' :=
  ensures_intern_other h rfl (by simp) (by simp) (by simp) rfl

theorem ensures_boundFunction {origin : NodeId} {method : MethodId} {binding : Binding}
    {receiver : Option NodeId} :
    Ensures (Growing.boundFunction origin method binding receiver) g fun _ g' => Grows s g g' :=
  (ensures_intern_other h rfl (by simp) (by simp) (by simp) (by trivial)).mono fun _ _ h => h.1

theorem ensures_synthetic {object : Synthetic} {owner : Option String} :
    Ensures (Growing.synthetic c object owner) g fun _ g' => Grows s g g' := by
  unfold Growing.synthetic
  cases owner with
  | none =>
    refine (ensures_intern_other h rfl (by simp) (by simp) (by simp) ?_).mono fun _ _ h => h.1
    trivial
  | some owner =>
    obtain ⟨hbare, hkind⟩ := shape_allocation owner
    exact (ensures_intern_other h hbare hkind (by simp) (by simp) (by trivial)).mono fun _ _ h => h.1

theorem ensures_temporary {stmt : StmtId} :
    Ensures (Growing.temporary c stmt) g fun n g' => Grows s g g' ∧
      g'.interned[(c, Location.temporary stmt)]? = some n ∧
      Interns (fun c' l => c' = c ∧ l = .temporary stmt) g g' :=
  ensures_intern_other h rfl (by simp) (by simp) (by simp) rfl

theorem ensures_slot {space key : String} :
    Ensures (Growing.slot space key) g fun _ g' => Grows s g g' :=
  (ensures_intern_other h rfl (by simp) (by simp) (by simp) (by trivial)).mono fun _ _ h => h.1

end Plain

/-- A place gets a value that stands for it. -/
theorem grows_represent (h : g.Consistent s) {p : Place} (hl : g.representatives.lookup p = none)
    (hp : s.place? v = .ok (some p)) :
    Grows s g { g with representatives := (p, v) :: g.representatives } := by
  have hmono : ∀ q w, g.representatives.lookup q = some w →
      ((p, v) :: g.representatives).lookup q = some w := fun _ _ => lookup_cons_of_eq_some hl
  refine Raises.grows ⟨⟨rfl, rfl, hmono, fun _ _ _ hn => hn, fun n a ha => ⟨a, ha, .refl a, rfl⟩,
    fun n a ha => .inl ⟨a, ha⟩⟩, ?_⟩ fun _ _ _ hn => hn
  exact {
    tables := ⟨h.tables.outgoing, h.tables.incoming, h.tables.addresses, h.tables.ends⟩
    interned := h.interned
    fieldRefs := h.fieldRefs
    bases := h.bases
    fields := h.fields
    owners := h.owners
    places := fun n a w q ha hw hq => (h.places n a w q ha hw hq).imp_left (hmono q w)
    representatives := fun q w hq => by
      by_cases hqp : q = p
      · subst hqp
        simp only [List.lookup_cons, beq_self_eq_true] at hq
        cases hq
        exact hp
      · simp only [List.lookup_cons, beq_eq_false_iff_ne.2 hqp] at hq
        exact h.representatives q w hq
    parts := fun n a w base key ha hw hq => by
      obtain ⟨b, hk, hb⟩ := h.parts n a w base key ha hw hq
      exact ⟨b, hk, h.nodeOf?_mono (fun _ _ _ hn => hn) hmono hb⟩
    kinds := h.kinds
    instances := h.instances }

/-- A value is settled under the name by which it is looked up from now on. -/
theorem ensures_settle (h : g.Consistent s) {c : ContextId} :
    Ensures (Growing.settle s c v) g fun k g' => Grows s g g' ∧
      (∀ g₂, g'.Adds g₂ → g₂.known s c v = .ok k) ∧
      (∀ p, s.place? k.2 = .ok (some p) →
        g'.representatives.lookup p = some k.2 ∧ (p.isShared = true → k.1 = .empty)) ∧
      g'.interned = g.interned ∧ s.Settles c v k := by
  refine ensures_lift_bind fun p? hp => ?_
  cases p? with
  | none =>
    refine ensures_pure ⟨.refl h, fun _ _ => known_eq_ok.2 ⟨none, hp, rfl⟩, fun p hp' => ?_, rfl,
      .inl rfl⟩
    rw [hp] at hp'
    cases hp'
  | some p =>
    refine ensures_bind (Q := fun v' g' => Grows s g g' ∧
      g'.representatives.lookup p = some v' ∧ g'.interned = g.interned) (ensures_modifyGet ?_) ?_
    · cases hl : g.representatives.lookup p with
      | some v' => exact ⟨.refl h, hl, rfl⟩
      | none => exact ⟨grows_represent h hl hp, by simp, rfl⟩
    · rintro v' g' ⟨hg, hl, hinterned⟩
      have hpv := hg.consistent.representatives p v' hl
      refine ensures_pure ⟨hg, fun g₂ h₂ => known_eq_ok.2 ⟨some p, hp, ?_⟩, fun q hq => ?_,
        hinterned, .inr ⟨p, hp, hpv, rfl⟩⟩
      · simp [h₂.representatives p v' hl]
      rw [hq] at hpv
      cases hpv
      exact ⟨hl, fun hs => by simp [hs]⟩

/-- A value that is no part of another value. -/
theorem ensures_introduce_plain (h : g.Consistent s) {c : ContextId} (hbare : kind.shape = kind)
    (hkind : ∀ n key, kind ≠ .fieldRef n key) (hval : IsPlain s g c v)
    (hnode : s.nodeKind v = .ok kind) : Ensures (Growing.introduce c v stmt kind) g fun n g' =>
      Grows s g g' ∧ g'.interned[(c, Location.value v)]? = some n ∧
        Interns (fun c' l => c' = c ∧ l = .value v) g g' := by
  refine ensures_bind (ensures_intern_plain h hbare hkind (by simp) ?_ fun _ => hnode) ?_
  · rintro w ⟨⟩
    exact hval
  · rintro n g₁ ⟨hg, hn, hold⟩
    split
    · next b key => exact absurd rfl (hkind b key)
    · exact ensures_modify_bind (ensures_pure ⟨hg.listed hn hold, hn, hold⟩)

/-- A part of another value, whose node is there already. -/
theorem ensures_introduce_part (h : g.Consistent s) {c : ContextId} {base : ValueId}
    (hp : s.place? v = .ok (some (.part base key)))
    (hl : g.representatives.lookup (.part base key) = some v)
    (hb : g.nodeOf? s c base = .ok (some b)) (hrange : b.index < g.nodes.size) :
    Ensures (Growing.introduce c v stmt (.fieldRef b key)) g fun n g' =>
      Grows s g g' ∧ g'.interned[(c, Location.value v)]? = some n ∧
        Interns (fun c' l => c' = c ∧ l = .value v) g g' := by
  refine ensures_bind ensures_intern ?_
  intro n g₁ h₁
  refine ensures_bind (Q := fun _ g' => Raises s g g' ∧
    g'.interned[(c, Location.value v)]? = some n ∧ Interns (fun c' l => c' = c ∧ l = .value v) g g')
    (ensures_modify ?_) ?_
  · rcases h₁ with ⟨hn, rfl⟩ | ⟨hi, rfl, rfl⟩
    · -- the node is there, so its base lists it
      obtain ⟨a, ha, rfl, hv⟩ := (h.interned ..).1 hn
      obtain ⟨b', hk, hb'⟩ := h.parts n a v base key ha hv hp
      rw [hb] at hb'
      cases hb'
      have hgrows : Grows s g₁ (g₁.modifyNode b fun x =>
          { x with fieldRefs := x.fieldRefs.push n }) := by
        refine grows_modifyNode h (fun x hx => ⟨⟨rfl, rfl, rfl, rfl, fun _ _ h => h,
          fun r hr => Array.mem_push_of_mem _ hr⟩, fun r hr => ?_, rfl⟩) fun _ => rfl
        rcases Array.mem_push.1 hr with hr | rfl
        · exact hr
        · exact (h.fieldRefs b x _ hx).2 ⟨key, a, ha, hk⟩
      exact ⟨hgrows.toRaises, hn, fun _ _ _ hn => .inl hn⟩
    · refine ⟨raises_fieldRef h key ?_ rfl (by simp), interned_withNode _, interns_withNode _⟩
      exact {
        interned := hi
        fieldRefs := rfl
        fields := rfl
        base := by
          rintro _ _ ⟨⟩
          exact hrange
        owner := by simp
        place := by
          rintro _ p ⟨⟩ hp'
          rw [hp] at hp'
          cases hp'
          exact ⟨hl, fun hs => by cases hs⟩
        part := by
          rintro _ base' key' ⟨⟩ hp'
          rw [hp] at hp'
          cases hp'
          exact ⟨b, rfl, hb⟩
        kind := fun hno => absurd hp (hno base key) }
  · rintro _ g₂ ⟨hg, hn, hold⟩
    exact ensures_modify_bind (ensures_pure ⟨hg.listed hn hold, hn, hold⟩)

/-- The place behind a value that is no global property. -/
def placeOf : Value → Option Place
  | .field base target => some (.part base (.named target.name))
  | .element base _ => some (.part base .element)
  | .staticField target => some (.staticField target)
  | _ => none

theorem place?_of_value {a : Value} (hg : s.globalProperty? v = .ok none) (hv : s.value v = .ok a) :
    s.place? v = .ok (placeOf a) := by
  simp only [Scene.place?, hg, hv, bind, Except.bind]
  cases a <;> rfl

/-- What is no part of a value is known by its kind alone. -/
theorem bare_of_nodeKind (h : s.nodeKind v = .ok kind) :
    kind.shape = kind ∧ ∀ n key, kind ≠ .fieldRef n key := by
  simp only [Scene.nodeKind, bind, Except.bind] at h
  split at h
  · cases h
  split at h
  · cases h
    simp [NodeKind.shape]
  split at h
  · cases h
  split at h <;> cases h
  · split <;> simp [NodeKind.shape]
  · simp [NodeKind.shape]
  · exact shape_allocation _
  all_goals simp [NodeKind.shape]

theorem nodeOf?_lt_size (h : g.Consistent s) {c : ContextId} (hn : g.nodeOf? s c v = .ok (some n)) :
    n.index < g.nodes.size := by
  obtain ⟨a, -, hn⟩ := nodeOf?_eq_some.1 hn
  split at hn
  · obtain ⟨b, hb, -⟩ := (h.interned ..).1 hn
    exact hb.lt_size
  · obtain ⟨k, -, hn⟩ := hn
    obtain ⟨b, hb, -⟩ := (h.interned ..).1 hn
    exact hb.lt_size

/-- A value that is made is found, and so are its bases. -/
theorem ensures_valueWithin {fuel : Nat} {c : ContextId} (h : g.Consistent s) :
    Ensures (Growing.valueWithin s fuel c v stmt) g fun n g' =>
      Grows s g g' ∧ g'.nodeOf? s c v = .ok (some n) ∧
        ∀ P, s.Entails P → P c (.value v) → Interns P g g' := by
  induction fuel generalizing g c v with
  | zero => exact ensures_throw id
  | succ fuel ih =>
    rw [Growing.valueWithin_succ]
    refine ensures_lift_bind fun a ha => ?_
    split
    · next hglobal =>
      refine (ensures_globalObject h).mono fun n g' ⟨hg, hn, hnew⟩ => ⟨hg,
        nodeOf?_eq_some.2 ⟨a, ha, ?_⟩, fun P hP hv => hnew.mono ?_⟩
      · rw [if_pos hglobal]
        exact hn
      · rintro _ _ ⟨rfl, rfl⟩
        exact hP.globals c v a hv ha hglobal
    · next hglobal =>
      refine ensures_bind (ensures_settle h) ?_
      rintro ⟨c', v'⟩ g₁ ⟨h₁, hknown, hsettled, hsame, hsettles⟩
      have hfound : ∀ n g', (Grows s g₁ g' ∧ g'.interned[(c', Location.value v')]? = some n ∧
          ∀ P, s.Entails P → P c' (.value v') → Interns P g₁ g') →
          Grows s g g' ∧ g'.nodeOf? s c v = .ok (some n) ∧
            ∀ P, s.Entails P → P c (.value v) → Interns P g g' := by
        rintro n g' ⟨hg, hn, hnew⟩
        refine ⟨h₁.trans hg, nodeOf?_eq_some.2 ⟨a, ha, ?_⟩, fun P hP hv => ?_⟩
        · rw [if_neg hglobal]
          exact ⟨_, hknown g' hg.toAdds, hn⟩
        · have hnew := hnew P hP (hP.settled c v (c', v') hv hsettles)
          unfold Interns at hnew ⊢
          rwa [hsame] at hnew
      refine ensures_get_bind ?_
      split
      · next n hn =>
        exact ensures_pure (hfound n _ ⟨.refl h₁.consistent, hn, fun _ _ _ => .refl _⟩)
      refine ensures_lift_bind fun p? hp => ?_
      split
      · next base key =>
        refine ensures_bind (ih h₁.consistent) ?_
        rintro b g₂ ⟨h₂, hb, hbase⟩
        refine (ensures_introduce_part h₂.consistent hp (h₂.representatives _ _ (hsettled _ hp).1)
          hb (nodeOf?_lt_size h₂.consistent hb)).mono fun n g' hn => hfound n g' ?_
        refine ⟨h₂.trans hn.1, hn.2.1, fun P hP hv => ?_⟩
        refine (hbase P hP (hP.parts c' v' base key hv hp)).trans (hn.2.2.mono ?_)
        rintro _ _ ⟨rfl, rfl⟩
        exact hv
      · next hplain =>
        refine ensures_lift_bind fun kind hnode => ?_
        obtain ⟨hbare, hkind⟩ := bare_of_nodeKind hnode
        refine (ensures_introduce_plain h₁.consistent hbare hkind (fun p hp' => ?_) hnode).mono
          fun n g' hn => hfound n g' ⟨hn.1, hn.2.1, fun P _ hv => hn.2.2.mono ?_⟩
        · cases Except.ok.inj (hp.symm.trans hp')
          have hshared : p.isShared = true := by
            cases p with
            | part base key => exact absurd rfl (hplain base key)
            | _ => rfl
          exact ⟨hshared, (hsettled p hp).1, (hsettled p hp).2 hshared⟩
        · rintro _ _ ⟨rfl, rfl⟩
          exact hv

theorem ensures_value (h : g.Consistent s) {c : ContextId} :
    Ensures (Growing.value s c v stmt) g fun n g' =>
      Grows s g g' ∧ g'.nodeOf? s c v = .ok (some n) ∧
        ∀ P, s.Entails P → P c (.value v) → Interns P g g' :=
  ensures_valueWithin h

/-- All new nodes are parts of objects, under contexts that other nodes have. -/
def OnlyFields (g g' : FlowGraph) : Prop :=
  ∀ n a', g'.At n a' → (∃ a, g.At n a) ∨ a'.kind = .objectField ∧
    (∃ o key, a'.location = .field o key) ∧ ∃ m b, g.At m b ∧ b.context = a'.context

theorem ensures_objectField (h : g.Consistent s) : Ensures (Growing.objectField o key) g fun x g' =>
      Grows s g g' ∧ g'.IsField x o key ∧ OnlyFields g g' := by
  refine ensures_node_bind fun a ha => ?_
  split
  · next x hx => exact ensures_pure ⟨.refl h, ⟨a, ha, hx⟩, fun n b hb => .inl ⟨b, hb⟩⟩
  · next hx =>
    refine ensures_bind ensures_intern ?_
    rintro x g₁ (⟨hn, rfl⟩ | ⟨hi, rfl, rfl⟩)
    · obtain ⟨b, hb, -, hl⟩ := (h.interned ..).1 hn
      rw [(h.fields o a key x ha).2 ⟨b, hb, hl⟩] at hx
      cases hx
    · refine ensures_modify_bind (ensures_pure ⟨grows_field h ?_ ha hx rfl rfl, ?_, ?_⟩)
      · exact {
          interned := hi
          fieldRefs := rfl
          fields := rfl
          base := by simp
          owner := by
            rintro _ _ ⟨⟩
            exact ⟨a, ha, rfl⟩
          place := by simp
          part := by simp
          kind := trivial }
      · exact ⟨_, at_modifyNode.2 ⟨a, at_withNode.2 (.inl ha), rfl⟩, by simp⟩
      · intro n b hb
        obtain ⟨c, hc, rfl⟩ := at_modifyNode.1 hb
        rcases at_withNode.1 hc with hc | ⟨rfl, rfl⟩
        · exact .inl ⟨c, hc⟩
        · refine .inr ?_
          split <;> exact ⟨rfl, ⟨o, key, rfl⟩, o, a, ha, rfl⟩

/-- A field reference denotes the part of the object that it names. -/
theorem ensures_fieldOf (h : g.Consistent s) {r : NodeId} :
    Ensures (Growing.fieldOf r o) g fun x? g' => Grows s g g' ∧ OnlyFields g g' ∧
      ((∃ b key x, g.IsFieldRef r b key ∧ x? = some x ∧ g'.IsField x o key) ∨
        (x? = none ∧ ∀ b key, ¬ g.IsFieldRef r b key)) := by
  refine ensures_node_bind fun a ha => ?_
  split
  · next b key hk =>
    refine ensures_bind (ensures_objectField h) ?_
    rintro x g' ⟨hg, hx, hnew⟩
    exact ensures_pure ⟨hg, hnew, .inl ⟨b, key, x, ⟨a, ha, Node.fieldRef?_eq_some.1 hk⟩, rfl, hx⟩⟩
  · next hk =>
    refine ensures_pure ⟨.refl h, fun n b hb => .inl ⟨b, hb⟩, .inr ⟨rfl, ?_⟩⟩
    rintro b key ⟨a', ha', hk'⟩
    cases Option.some.inj (ha.symm.trans ha')
    rw [Node.fieldRef?_eq_some.2 hk'] at hk
    cases hk

theorem ensures_element (h : g.Consistent s) :
    Ensures (Growing.element o) g fun x g' => Grows s g g' ∧ g'.IsField x o .element := by
  refine ensures_bind (ensures_objectField h) ?_
  rintro x g₁ ⟨h₁, hx, -⟩
  refine ensures_bind (Q := fun _ g' => Grows s g₁ g') (ensures_modify ?_) ?_
  · refine grows_modifyNode h₁.consistent (fun a _ => ?_) fun a => ?_
    · split
      · next kind hk =>
        exact ⟨⟨rfl, rfl, rfl, by simp [hk, NodeKind.shape], fun _ _ h => h, fun _ h => h⟩,
          fun _ h => h, rfl⟩
      · exact ⟨.refl a, fun _ h => h, rfl⟩
    · split
      · next kind hk => simp [Node.pointer?, hk]
      · rfl
  · intro _ g₂ h₂
    refine ensures_pure ⟨h₁.trans h₂, ?_⟩
    obtain ⟨a, ha, hk⟩ := hx
    obtain ⟨a', ha', hkeep, -⟩ := h₂.keeps o a ha
    exact ⟨a', ha', hkeep.fields _ x hk⟩

theorem ensures_fieldRef (h : g.Consistent s) :
    Ensures (Growing.fieldRef b key) g fun _ g' => Grows s g g' := by
  refine ensures_node_bind fun a ha => ensures_get_bind ?_
  split
  · exact ensures_pure (.refl h)
  · next hi =>
    refine ensures_bind ensures_intern ?_
    rintro n g₁ (⟨hn, -⟩ | ⟨-, rfl, rfl⟩)
    · rw [hi] at hn
      cases hn
    · refine ensures_modify_bind (ensures_pure
        (Raises.grows (raises_fieldRef h key ?_ rfl (by simp)) fun c v n hn => ?_))
      · exact {
          interned := hi
          fieldRefs := rfl
          fields := rfl
          base := by
            rintro _ _ ⟨⟩
            exact ha.lt_size
          owner := by simp
          place := by simp
          part := by simp
          kind := trivial }
      · exact (interns_withNode _ c _ n hn).resolve_right (by simp)

theorem Consistent.withEdge (h : g.Consistent s) {a : NodeId} {k : EdgeKind}
    (ha : a.index < g.nodes.size) (hb : b.index < g.nodes.size) :
    (g.withEdge a b k stmt).Consistent s where
  tables := h.tables.withEdge ha hb
  interned := h.interned
  fieldRefs := h.fieldRefs
  bases := h.bases
  fields := h.fields
  owners := h.owners
  places := h.places
  representatives := h.representatives
  parts := h.parts
  kinds := h.kinds
  instances := h.instances

/-- A change of what is attached to a node. -/
theorem Consistent.mapPointer (h : g.Consistent s) (n : NodeId) (f : PointerInfo → PointerInfo) :
    (g.modifyNode n (·.mapPointer f)).Consistent s := by
  refine h.gets (gets_modifyNode fun a _ => ?_) (by simp)
  obtain ⟨hk, hr, hf⟩ := a.mapPointer_keeps f
  exact ⟨hk, fun r h => hr ▸ h, hf⟩

/-- The programs that make a graph for the values of a scene, step by step. -/
inductive Makes (s : Scene) : {α : Type} → Growing α → Prop where
  | pure {α : Type} (a : α) : Makes s (pure a : Growing α)
  | bind {α β : Type} {m : Growing α} {f : α → Growing β} :
      Makes s m → (∀ a, Makes s (f a)) → Makes s (m >>= f)
  | value (c : ContextId) (v : ValueId) (stmt : Option StmtId) : Makes s (Growing.value s c v stmt)
  | globalObject : Makes s Growing.globalObject
  | objectField (object : NodeId) (key : FieldKey) : Makes s (Growing.objectField object key)
  | fieldOf (fieldRef object : NodeId) : Makes s (Growing.fieldOf fieldRef object)
  | element (object : NodeId) : Makes s (Growing.element object)
  | fieldRef (base : NodeId) (key : FieldKey) : Makes s (Growing.fieldRef base key)
  | boundFunction (origin : NodeId) (method : MethodId) (binding : Binding)
      (receiver : Option NodeId) : Makes s (Growing.boundFunction origin method binding receiver)
  | synthetic (c : ContextId) (object : Synthetic) (owner : Option String) :
      Makes s (Growing.synthetic c object owner)
  | temporary (c : ContextId) (stmt : StmtId) : Makes s (Growing.temporary c stmt)
  | slot (space key : String) : Makes s (Growing.slot space key)
  | mapPointer (n : NodeId) (f : PointerInfo → PointerInfo) :
      Makes s (Growing.update n (·.mapPointer f))
  | addEdge (a b : NodeId) (k : EdgeKind) (stmt : Option StmtId) :
      Makes s (Growing.addEdge a b k stmt)

theorem Makes.consistent {α : Type} {m : Growing α} (hm : Makes s m) (h : g.Consistent s) :
    Ensures m g fun _ g' => g'.Consistent s := by
  induction hm generalizing g with
  | pure a => exact ensures_pure h
  | bind _ _ ihm ihf => exact ensures_bind (ihm h) fun a g₁ h₁ => ihf a h₁
  | value c v stmt => exact (ensures_value h).mono fun _ _ h => h.1.consistent
  | globalObject => exact (ensures_globalObject h).mono fun _ _ h => h.1.consistent
  | objectField object key => exact (ensures_objectField h).mono fun _ _ h => h.1.consistent
  | fieldOf fieldRef object => exact (ensures_fieldOf h).mono fun _ _ h => h.1.consistent
  | element object => exact (ensures_element h).mono fun _ _ h => h.1.consistent
  | fieldRef base key => exact (ensures_fieldRef h).mono fun _ _ h => h.consistent
  | boundFunction origin method binding receiver =>
    exact (ensures_boundFunction h).mono fun _ _ h => h.consistent
  | synthetic c object owner => exact (ensures_synthetic h).mono fun _ _ h => h.consistent
  | temporary c stmt => exact (ensures_temporary h).mono fun _ _ h => h.1.consistent
  | slot space key => exact (ensures_slot h).mono fun _ _ h => h.consistent
  | mapPointer n f => exact ensures_modify (h.mapPointer n f)
  | addEdge a b k stmt =>
    refine ensures_addEdge.mono ?_
    rintro _ g' (⟨-, -, rfl⟩ | ⟨-, -, ha, hb, rfl⟩)
    · exact h
    · exact h.withEdge ha hb

/-- The graphs that are made from nothing. -/
def Made (s : Scene) (g : FlowGraph) : Prop :=
  ∃ m : Growing Unit, Makes s m ∧ m {} = .ok () g

theorem Made.consistent (h : Made s g) : g.Consistent s := by
  obtain ⟨m, hm, hrun⟩ := h
  exact (hm.consistent (.empty s)).1 hrun

end PointsTo.FlowGraph
