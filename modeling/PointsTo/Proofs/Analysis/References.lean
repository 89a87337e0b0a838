import PointsTo.Proofs.Analysis.StaticCalls

/-! What the reference to a part of an object stands for in a call: its own node, and not the parts
of the objects that it refers to. -/
namespace PointsTo

theorem Scene.value_of_part {scene : Scene} {v base : ValueId} {key : FieldKey}
    (h : scene.place? v = .ok (some (.part base key))) :
    ∃ a, scene.value v = .ok a ∧ a.isPointer = true ∧ a.isGlobalObject = false := by
  unfold Scene.place? at h
  cases hg : scene.globalProperty? v with
  | error f => simp [hg, bind, Except.bind] at h
  | ok name? =>
    cases name? with
    | some name => simp [hg, bind, Except.bind, pure, Except.pure] at h
    | none =>
      cases hv : scene.value v with
      | error f => simp [hg, hv, bind, Except.bind] at h
      | ok a =>
        simp only [hg, hv, bind, Except.bind] at h
        cases a with
        | field | element => exact ⟨_, rfl, rfl, rfl⟩
        | _ => simp [pure, Except.pure] at h

/-- The node of a reference to a part of an object refers to the node of its base. -/
theorem FlowGraph.Consistent.isFieldRef {scene : Scene} {g : FlowGraph} (h : g.Consistent scene)
    {c : ContextId} {v base : ValueId} {key : FieldKey} {r : NodeId}
    (hp : scene.place? v = .ok (some (.part base key)))
    (hr : g.nodeOf? scene c v = .ok (some r)) :
    ∃ b, g.nodeOf? scene c base = .ok (some b) ∧ g.IsFieldRef r b key := by
  obtain ⟨a, ha, -, hglobal⟩ := Scene.value_of_part hp
  obtain ⟨a', ha', hr⟩ := FlowGraph.nodeOf?_eq_some.1 hr
  cases Except.ok.inj (ha.symm.trans ha')
  rw [hglobal, if_neg (by simp)] at hr
  obtain ⟨k, hk, hr⟩ := hr
  obtain ⟨p?, hp', rfl⟩ := FlowGraph.known_eq_ok.1 hk
  cases Except.ok.inj (hp.symm.trans hp')
  obtain ⟨x, hx, hcontext, hlocation⟩ := (h.interned ..).1 hr
  -- the value that the node is known under names the same part
  have hplace : scene.place? ((g.representatives.lookup (.part base key)).getD v) =
      .ok (some (.part base key)) := by
    cases hl : g.representatives.lookup (.part base key) with
    | none => exact hp
    | some v' => exact h.representatives _ _ hl
  obtain ⟨b, hkind, hb⟩ := h.parts r x _ base key hx hlocation hplace
  have hc : x.context = c := hcontext
  exact ⟨b, hc ▸ hb, x, hx, hkind⟩

namespace State

variable {p : Problem} {s : State} {r b y o w : NodeId} {key : FieldKey}

/-- What the part `key` of an object points to. -/
def PartHas (s : State) (o : NodeId) (key : FieldKey) (w : NodeId) : Prop :=
  ∃ x, s.graph.IsField x o key ∧ s.points.Has x w

/-- A reference is also read by an assignment, from which copies lead to `y`. -/
def ReadsInto (s : State) (r y : NodeId) : Prop :=
  ∃ d, s.graph.Edge r d .load ∧ Relation.ReflTransGen s.graph.CopyEdge d y

/-- A reference is also written by an assignment, to which copies lead from `y`. -/
def WritesFrom (s : State) (y r : NodeId) : Prop :=
  ∃ a, Relation.ReflTransGen s.graph.CopyEdge y a ∧ s.graph.Edge a r .write

/-- The reference `r` to the part `key` of what `b` points to is handed over to `y`: the objects of
its own node arrive, and those of a part that this node has or that are read besides. -/
structure Hands (s : State) (r b : NodeId) (key : FieldKey) (y : NodeId) : Prop where
  own : ∀ w, s.points.Has r w → s.points.Has y w
  parts : ∀ o w, s.points.Has b o → s.graph.IsObject o → s.PartHas o key w →
    s.points.Has r w ∨ s.ReadsInto r y → s.points.Has y w

/-- What `y` points to is put into the reference `r` to the part `key` of what `b` points to: it
arrives at the node of the reference, and at the parts if it is written besides. -/
structure Fills (s : State) (y r b : NodeId) (key : FieldKey) : Prop where
  own : ∀ w, s.points.Has y w → s.points.Has r w
  parts : ∀ o w, s.points.Has b o → s.graph.IsObject o → s.WritesFrom y r → s.points.Has y w →
    s.PartHas o key w

/-- The reference `v` under the context `c`, with its own node and the node of its base. -/
structure Refers (p : Problem) (s : State) (c : ContextId) (v : ValueId) (r b : NodeId)
    (key : FieldKey) : Prop where
  base : ∃ base, p.scene.place? v = .ok (some (.part base key)) ∧
    s.graph.nodeOf? p.scene c base = .ok (some b)
  node : s.graph.nodeOf? p.scene c v = .ok (some r)

/-- What becomes of references to parts of objects in a call under the context `c` that is connected
with its callee under `c'`. -/
structure UsesReferences (p : Problem) (s : State) (site : StaticSite) (c : ContextId)
    (object : Option NodeId) (c' : ContextId) (offset : Nat) : Prop where
  arguments : ∀ args formals (k : Nat) v u base key, site.args = some args →
    p.scene.parameterLocals site.callee = .ok formals → args[k]? = some (.value v) →
    formals[offset + k]? = some (some u) → (∀ j < k, ∃ u, formals[offset + j]? = some (some u)) →
    p.scene.place? v = .ok (some (.part base key)) →
    ∃ r b y, s.Refers p c v r b key ∧ s.graph.nodeOf? p.scene c' u = .ok (some y) ∧
      s.Hands r b key y
  receiver : object = none → ∀ v decl base key, site.receiver = some v →
    p.scene.method site.callee = .ok decl → decl.isStatic = false →
    p.scene.place? v = .ok (some (.part base key)) →
    ∃ u r b y, p.scene.receiverLocal? site.callee = .ok (some u) ∧ s.Refers p c v r b key ∧
      s.graph.nodeOf? p.scene c' u = .ok (some y) ∧ s.Hands r b key y
  /-- A function may be bound to a reference as its receiver. -/
  bound : ∀ r b key decl, s.Bears object r → s.graph.IsFieldRef r b key →
    p.scene.method site.callee = .ok decl → decl.isStatic = false →
    ∃ u y, p.scene.receiverLocal? site.callee = .ok (some u) ∧
      s.graph.nodeOf? p.scene c' u = .ok (some y) ∧ s.Hands r b key y
  returns : ∀ v u base key, site.target = some v → p.Returns site.callee u →
    p.scene.place? v = .ok (some (.part base key)) →
    ∃ r b y, s.Refers p c v r b key ∧ s.graph.nodeOf? p.scene c' u = .ok (some y) ∧
      s.Fills y r b key

theorem Sane.refers (hs : s.Sane p) {c : ContextId} {v base : ValueId}
    (hp : p.scene.place? v = .ok (some (.part base key)))
    (hr : s.graph.nodeOf? p.scene c v = .ok (some r)) :
    ∃ b, s.Refers p c v r b key ∧ s.graph.IsFieldRef r b key := by
  obtain ⟨b, hb, href⟩ := hs.graph.isFieldRef hp hr
  exact ⟨b, ⟨⟨base, hp, hb⟩, hr⟩, href⟩

theorem Finished.copies_path (h : s.Finished p) (hpath : Relation.ReflTransGen s.graph.CopyEdge r y)
    (hw : s.points.Has r w) : s.points.Has y w := by
  induction hpath with
  | refl => exact hw
  | tail _ hedge ih => exact h.copies hedge ih

theorem Finished.hands (h : s.Finished p) (hr : s.graph.IsFieldRef r b key)
    (hedge : s.graph.CopyEdge r y) : s.Hands r b key y where
  own w hw := h.copies hedge hw
  parts o w ho hobj hw hread := by
    rcases hread with hown | ⟨d, hload, hpath⟩
    · exact h.copies hedge hown
    · obtain ⟨x, hx, hw⟩ := hw
      obtain ⟨x', hx', hcopy⟩ := (h.served hr ho hobj).1 d hload
      cases hx.unique hx'
      exact h.copies_path hpath (h.copies ⟨.copy, rfl, hcopy⟩ hw)

theorem Finished.fills (h : s.Finished p) (hr : s.graph.IsFieldRef r b key)
    (hedge : s.graph.CopyEdge y r) : s.Fills y r b key where
  own w hw := h.copies hedge hw
  parts o w ho hobj hwritten hw := by
    obtain ⟨a, hpath, hwrite⟩ := hwritten
    obtain ⟨x, hx, hcopy⟩ := (h.served hr ho hobj).2 a hwrite
    exact ⟨x, hx, h.copies ⟨.copy, rfl, hcopy⟩ (h.copies_path hpath hw)⟩

end State

/-- At the end of an analysis, a reference to a part of an object that a call hands over or is to
hold its result stands for its own node. The objects of the part are handed over if that node has
them or the reference is also read; a result reaches the part if it is also written. -/
theorem Problem.analyze_usesReferences {p : Problem} {fuel : Nat} {s : State}
    (h : p.analyze fuel = .ok () s) {site : StaticSite} {c c' : ContextId} {object : Option NodeId}
    {offset : Nat} (hwired : s.Wired p site c object c' offset) :
    s.UsesReferences p site c object c' offset := by
  have hf := finished_of_analyze h
  constructor
  · intro args formals k v u base key hargs hlocals hv hu hfirst hp
    have hdrop : ∀ j, (formals.toList.drop offset)[j]? = formals[offset + j]? := by
      intro j
      rw [List.getElem?_drop, Array.getElem?_toList]
    obtain ⟨a, ha, hpointer, -⟩ := Scene.value_of_part hp
    obtain ⟨r, y, hr, hy, hedge⟩ := hwired.arguments args formals hargs hlocals k (.value v) u hv
      (by rw [hdrop, hu]) (fun j hj => by rw [hdrop]; exact hfirst j hj) ⟨a, ha, hpointer⟩
    obtain ⟨b, hrefers, href⟩ := hf.toSane.refers hp hr
    exact ⟨r, b, y, hrefers, hy, hf.hands href hedge⟩
  · intro hobject v decl base key hv hdecl hstatic hp
    obtain ⟨u, hu, r, y, hr, hy, hedge⟩ := hwired.receiver hobject v decl hv hdecl hstatic
    obtain ⟨b, hrefers, href⟩ := hf.toSane.refers hp hr
    exact ⟨u, r, b, y, hu, hrefers, hy, hf.hands href hedge⟩
  · intro r b key decl hbears href hdecl hstatic
    obtain ⟨u, hu, x, y, rfl, hy, hedge⟩ := hwired.bound r decl hbears hdecl hstatic
    exact ⟨u, y, hu, hy, hf.hands href hedge⟩
  · intro v u base key hv hu hp
    obtain ⟨y, r, hy, hr, hedge⟩ := hwired.returns v u hv hu
    obtain ⟨b, hrefers, href⟩ := hf.toSane.refers hp hr
    exact ⟨r, b, y, hrefers, hy, hf.fills href hedge⟩

/-- `x = new Foo; y = new Bar; x.f = y; x.k = g(x.f)`, where `g` returns a new `Baz`; if it is aided,
`z = x.f; t = g(z); x.k = t` follows. -/
def passedPart (aided : Bool) : Problem where
  scene := {
    files := #[⟨⟨0⟩, "main", ⟨0⟩, ⟨0⟩, ∅, ∅⟩]
    classes := #[⟨⟨0⟩, "Main", none, ⟨0⟩, none, false, (∅ : NameMap MethodId).insert "g" ⟨1⟩⟩,
      ⟨⟨1⟩, "Foo", none, ⟨0⟩, none, false, ∅⟩, ⟨⟨2⟩, "Bar", none, ⟨0⟩, none, false, ∅⟩,
      ⟨⟨3⟩, "Baz", none, ⟨0⟩, none, false, ∅⟩]
    methods := #[
      plainMethod 0 "main" {
        locals := ((((∅ : NameMap ValueId).insert "x" ⟨0⟩).insert "y" ⟨1⟩).insert "z" ⟨11⟩).insert
          "t" ⟨12⟩
        stmts := if aided then #[⟨0⟩, ⟨1⟩, ⟨2⟩, ⟨3⟩, ⟨7⟩, ⟨8⟩, ⟨9⟩] else #[⟨0⟩, ⟨1⟩, ⟨2⟩, ⟨3⟩] },
      { plainMethod 1 "g" {
          locals := ((∅ : NameMap ValueId).insert "p" ⟨7⟩).insert "r" ⟨9⟩
          stmts := #[⟨4⟩, ⟨5⟩, ⟨6⟩] } with params := [.any] }]
    stmts := #[⟨⟨0⟩, .assign ⟨0⟩ ⟨2⟩⟩, ⟨⟨0⟩, .assign ⟨1⟩ ⟨3⟩⟩, ⟨⟨0⟩, .assign ⟨4⟩ ⟨1⟩⟩,
      ⟨⟨0⟩, .assign ⟨5⟩ ⟨6⟩⟩, ⟨⟨1⟩, .assign ⟨7⟩ ⟨8⟩⟩, ⟨⟨1⟩, .assign ⟨9⟩ ⟨10⟩⟩, ⟨⟨1⟩, .ret ⟨9⟩⟩,
      ⟨⟨0⟩, .assign ⟨11⟩ ⟨4⟩⟩, ⟨⟨0⟩, .assign ⟨12⟩ ⟨13⟩⟩, ⟨⟨0⟩, .assign ⟨5⟩ ⟨12⟩⟩]
    values := #[.var "x" (.object "Foo"), .var "y" (.object "Bar"), .new "Foo", .new "Bar",
      .field ⟨0⟩ ⟨"Foo", "f"⟩, .field ⟨0⟩ ⟨"Foo", "k"⟩, .staticCall ⟨"Main", "g"⟩ [⟨4⟩],
      .var "p" .any, .parameter 0 .any, .var "r" (.object "Baz"), .new "Baz", .var "z" .any,
      .var "t" .any, .staticCall ⟨"Main", "g"⟩ [⟨11⟩]] }
  settings := { depth := 0 }

/-- Whether the two methods run, and the call `x.k = g(x.f)` is no model's (a test). -/
def State.passesPart (p : Problem) (s : State) : Bool :=
  s.instantiated.toList == [(.empty, ⟨0⟩), (.empty, ⟨1⟩)] &&
    (s.summaries[(⟨0⟩ : MethodId)]?).any (·.staticCalls.contains ⟨0⟩) &&
      (s.calls.sites.static? ⟨0⟩).any fun site => site.callee == ⟨1⟩ &&
        site.args == some [.value ⟨4⟩] && site.target == some ⟨5⟩ &&
          endsWith (Model.find? p site none s) fun model? _ => model?.isNone

theorem State.wired_of_passesPart {aided : Bool} {s : State} (hf : s.Finished (passedPart aided))
    (h : s.passesPart (passedPart aided) = true) :
    ∃ site, s.calls.sites.static? ⟨0⟩ = some site ∧ site.callee = ⟨1⟩ ∧
      site.args = some [.value ⟨4⟩] ∧ site.target = some ⟨5⟩ ∧
      s.Wired (passedPart aided) site .empty none .empty 0 := by
  simp only [passesPart, Bool.and_eq_true, Option.any_eq_true, beq_iff_eq] at h
  obtain ⟨⟨hlist, summary, hsummary, hi⟩, site, hsite, ⟨⟨hcallee, hargs⟩, htarget⟩, hmodel⟩ := h
  have hruns : ∀ a, a ∈ s.instantiated ↔ a = (.empty, ⟨0⟩) ∨ a = (.empty, ⟨1⟩) := by
    intro a
    rw [← Std.TreeSet.mem_toList, hlist]
    simp
  have hinstance := hf.instances _ ((hruns _).2 (.inl rfl))
  obtain ⟨_, hsite', hwired⟩ :=
    (hinstance.filled summary hsummary).wired ⟨0⟩ (Array.contains_iff_mem.1 hi)
  cases Option.some.inj (hsite.symm.trans hsite')
  have hbody : (passedPart aided).HasBody site.callee := hcallee ▸ ⟨_, rfl, rfl⟩
  obtain ⟨c', hc'⟩ := (hwired nofun hbody).resolve_left
    (unmodelled_of_endsWith hmodel).not_modelled
  have hc : c' = .empty := by
    rcases (hruns _).1 (hf.mem_instantiated hc'.awaited) with heq | heq <;> exact congrArg (·.1) heq
  exact ⟨site, hsite, hcallee, hargs, htarget, hc ▸ hc'⟩

instance (s : State) (o : NodeId) (key : FieldKey) (w : NodeId) : Decidable (s.PartHas o key w) :=
  decidable_of_iff ((s.graph.nodes[o.index]?).any fun a =>
    (a.fields.lookup key).any fun x => decide (s.points.Has x w)) <| by
    simp only [Option.any_eq_true, decide_eq_true_eq]
    constructor
    · rintro ⟨a, ha, x, hx, hw⟩
      exact ⟨x, ⟨a, ha, hx⟩, hw⟩
    · rintro ⟨x, ⟨a, ha, hx⟩, hw⟩
      exact ⟨a, ha, x, hx, hw⟩

theorem FlowGraph.nodeOf?_of_toOption {scene : Scene} {g : FlowGraph} {c : ContextId} {v : ValueId}
    {n : NodeId} (h : (g.nodeOf? scene c v).toOption = some (some n)) :
    g.nodeOf? scene c v = .ok (some n) := by
  cases hv : g.nodeOf? scene c v with
  | error f => simp [hv, Except.toOption] at h
  | ok n? => simpa [hv, Except.toOption] using h

/-- If the reference `x.f` is also read into `z`, which is handed over as well, the call `g(x.f)` can
be said to hand over the field. -/
theorem Problem.analyze_usesReferences_passedPart :
    ∃ s site, (passedPart true).analyze 4 = .ok () s ∧ s.calls.sites.static? ⟨0⟩ = some site ∧
      s.Wired (passedPart true) site .empty none .empty 0 ∧
      s.Refers (passedPart true) .empty ⟨4⟩ ⟨4⟩ ⟨1⟩ (.named "f") ∧ s.points.Has ⟨1⟩ ⟨0⟩ ∧
      s.graph.IsObject ⟨0⟩ ∧ s.PartHas ⟨0⟩ (.named "f") ⟨2⟩ ∧ s.ReadsInto ⟨4⟩ ⟨8⟩ ∧
      s.PointsAt (passedPart true) .empty (.value ⟨7⟩) ⟨2⟩ := by
  obtain ⟨_, s, h, hs⟩ := exists_of_endsWith (r := (passedPart true).analyze 4)
    (q := fun _ s => s.passesPart (passedPart true) &&
      ((s.graph.nodeOf? (passedPart true).scene .empty ⟨4⟩).toOption == some (some ⟨4⟩) &&
      ((s.graph.nodeOf? (passedPart true).scene .empty ⟨0⟩).toOption == some (some ⟨1⟩) &&
      ((s.graph.nodeOf? (passedPart true).scene .empty ⟨7⟩).toOption == some (some ⟨8⟩) &&
      ((s.graph.nodes[0]?).any (·.isObject) && (decide (s.points.Has ⟨1⟩ ⟨0⟩) &&
      (decide (s.PartHas ⟨0⟩ (.named "f") ⟨2⟩) && (s.graph.hasEdge ⟨4⟩ ⟨5⟩ .load &&
      s.graph.hasEdge ⟨5⟩ ⟨8⟩ .copy)))))))) (by decide +kernel)
  simp only [Bool.and_eq_true, beq_iff_eq, decide_eq_true_eq, Option.any_eq_true] at hs
  obtain ⟨hpasses, href, hx, hp, hobj, ho, hpart, hload, hcopy⟩ := hs
  have hf := finished_of_analyze h
  obtain ⟨site, hsite, hcallee, hargs, -, hwired⟩ := State.wired_of_passesPart hf hpasses
  have hreads : s.ReadsInto ⟨4⟩ ⟨8⟩ := ⟨⟨5⟩, hf.graph.tables.hasEdge_iff.1 hload,
    .single ⟨.copy, rfl, hf.graph.tables.hasEdge_iff.1 hcopy⟩⟩
  have hrefers : s.Refers (passedPart true) .empty ⟨4⟩ ⟨4⟩ ⟨1⟩ (.named "f") :=
    ⟨⟨⟨0⟩, rfl, FlowGraph.nodeOf?_of_toOption hx⟩, FlowGraph.nodeOf?_of_toOption href⟩
  obtain ⟨r, b, y, hr, hy, hhands⟩ := (analyze_usesReferences h hwired).arguments
    [.value ⟨4⟩] #[some ⟨7⟩] 0 ⟨4⟩ ⟨7⟩ ⟨0⟩ (.named "f") hargs (hcallee ▸ rfl) rfl rfl nofun rfl
  obtain ⟨base, hbase, hb⟩ := hr.base
  cases hr.node.symm.trans hrefers.node
  cases hbase
  cases hb.symm.trans (FlowGraph.nodeOf?_of_toOption hx)
  cases hy.symm.trans (FlowGraph.nodeOf?_of_toOption hp)
  exact ⟨s, site, h, hsite, hwired, hrefers, ho, hobj, hpart, hreads, ⟨8⟩, hy,
    hhands.parts ⟨0⟩ ⟨2⟩ ho hobj hpart (.inr hreads)⟩

/-- The call `x.k = g(x.f)` on its own neither hands over what the field `f` of `x` points to, nor
puts what `g` returns into the field `k`. -/
theorem Problem.analyze_misses_part :
    ∃ s site o, (passedPart false).analyze 3 = .ok () s ∧
      s.calls.sites.static? ⟨0⟩ = some site ∧ site.args = some [.value ⟨4⟩] ∧
      site.target = some ⟨5⟩ ∧ s.Wired (passedPart false) site .empty none .empty 0 ∧
      s.PointsAt (passedPart false) .empty (.value ⟨0⟩) o ∧ s.graph.IsObject o ∧
      (∃ w, s.PartHas o (.named "f") w ∧
        ¬ s.PointsAt (passedPart false) .empty (.value ⟨7⟩) w) ∧
      ∃ w, s.PointsAt (passedPart false) .empty (.value ⟨9⟩) w ∧ ¬ s.PartHas o (.named "k") w := by
  obtain ⟨_, s, h, hs⟩ := exists_of_endsWith (r := (passedPart false).analyze 3)
    (q := fun _ s => s.passesPart (passedPart false) &&
      ((s.graph.nodeOf? (passedPart false).scene .empty ⟨0⟩).toOption == some (some ⟨1⟩) &&
      ((s.graph.nodeOf? (passedPart false).scene .empty ⟨7⟩).toOption == some (some ⟨5⟩) &&
      ((s.graph.nodeOf? (passedPart false).scene .empty ⟨9⟩).toOption == some (some ⟨7⟩) &&
      ((s.graph.nodes[0]?).any (·.isObject) && (decide (s.points.Has ⟨1⟩ ⟨0⟩) &&
      (decide (s.PartHas ⟨0⟩ (.named "f") ⟨2⟩) && (decide (¬ s.points.Has ⟨5⟩ ⟨2⟩) &&
      (decide (s.points.Has ⟨7⟩ ⟨8⟩) && decide (¬ s.PartHas ⟨0⟩ (.named "k") ⟨8⟩))))))))))
    (by decide +kernel)
  simp only [Bool.and_eq_true, beq_iff_eq, decide_eq_true_eq, Option.any_eq_true] at hs
  obtain ⟨hpasses, hx, hp, hr, hobj, ho, hpart, hmissed, hresult, hlost⟩ := hs
  obtain ⟨site, hsite, -, hargs, htarget, hwired⟩ :=
    State.wired_of_passesPart (finished_of_analyze h) hpasses
  refine ⟨s, site, ⟨0⟩, h, hsite, hargs, htarget, hwired, ⟨⟨1⟩, FlowGraph.nodeOf?_of_toOption hx, ho⟩,
    hobj, ⟨⟨2⟩, hpart, ?_⟩, ⟨8⟩, ⟨⟨7⟩, FlowGraph.nodeOf?_of_toOption hr, hresult⟩, hlost⟩
  rintro ⟨y, hy, hw⟩
  cases hy.symm.trans (FlowGraph.nodeOf?_of_toOption hp)
  exact hmissed hw

end PointsTo
