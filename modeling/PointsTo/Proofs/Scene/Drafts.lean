import PointsTo.Proofs.Ensures
import PointsTo.Proofs.Lookup
import PointsTo.Proofs.Scene.Check
import PointsTo.Scene.Draft

/-! Drafts whose tables agree with what the statements of their scenes say. What a step adds refers to
positions that exist at its end, so the positions are compared with a later scene. -/
namespace PointsTo

/-- What the value stands for, if that is the receiver (`none`) or a parameter. -/
def Value.formal? : Value → Option (Option Nat)
  | .self _ => some none
  | .parameter index _ => some (some index)
  | _ => none

theorem Value.Refs.mono {P Q : Positions} {a : Value} (h : a.Refs P) (hPQ : ∀ t r, P t r → Q t r) :
    a.Refs Q :=
  ⟨fun w hw => hPQ _ _ (h.operands w hw), fun m hm => hPQ _ _ (h.target m hm)⟩

theorem NameMap.forall_insert {α : Type} {m : NameMap α} {name : String} {a : α} {P : α → Prop}
    (h : ∀ b ∈ m.values, P b) (ha : P a) : ∀ b ∈ (m.insert name a).values, P b := by
  intro b hb
  obtain ⟨e, he, rfl⟩ := List.mem_map.1 hb
  rcases mem_place he with rfl | he
  · exact ha
  · exact h _ (List.mem_map.2 ⟨e, he, rfl⟩)

section Tabled

variable {α : Type} {xs : Array α} {Q : Nat → α → Prop} {x : α} {k : Nat} {f : α → α}

/-- `Q` holds of every position and what is there. -/
def Tabled (xs : Array α) (Q : Nat → α → Prop) : Prop := ∀ i x, xs[i]? = some x → Q i x

theorem Tabled.push (h : Tabled xs Q) (hx : Q xs.size x) : Tabled (xs.push x) Q := by
  intro i y hy
  rw [Array.getElem?_push] at hy
  split at hy
  · next hi =>
    cases hy
    exact hi ▸ hx
  · exact h i y hy

theorem Tabled.modify (h : Tabled xs Q) (hf : ∀ x, Q k x → Q k (f x)) : Tabled (xs.modify k f) Q := by
  intro i y hy
  rw [Array.getElem?_modify] at hy
  split at hy
  · next hi =>
    subst hi
    obtain ⟨x, hx, rfl⟩ := Option.map_eq_some_iff.1 hy
    exact hf x (h _ x hx)
  · exact h i y hy

end Tabled

namespace Scene

/-- What a statement binds, and the local that it binds it to. -/
def binding? (s : Scene) (i : StmtId) : Option (Option Nat × ValueId) :=
  match s.stmts[i.index]? with
  | some ⟨_, .assign target source⟩ =>
    (s.values[source.index]?.bind Value.formal?).map fun formal => (formal, target)
  | _ => none

/-- The positions that may be passed on: all but those of receivers and parameters, which only the
statements that bind them refer to. -/
def Offers (s : Scene) : Positions
  | .value, v => ∃ a, s.values[v.index]? = some a ∧ a.formal? = none
  | t, r => s.Has t r

/-- Tables grow only, and statements and values stay what they are. -/
structure Grows (s t : Scene) : Prop where
  size : ∀ x, s.count x ≤ t.count x
  stmts : ∀ (i : Nat) x, s.stmts[i]? = some x → t.stmts[i]? = some x
  values : ∀ (i : Nat) x, s.values[i]? = some x → t.values[i]? = some x

variable {s t u : Scene} {x : Table} {r : Ref x}

theorem Grows.refl (s : Scene) : s.Grows s := ⟨fun _ => Nat.le_refl _, fun _ _ h => h, fun _ _ h => h⟩

theorem Grows.trans (h : s.Grows t) (h' : t.Grows u) : s.Grows u :=
  ⟨fun x => (h.size x).trans (h'.size x), fun i x hx => h'.stmts i x (h.stmts i x hx),
    fun i x hx => h'.values i x (h.values i x hx)⟩

theorem Grows.has (h : s.Grows t) (hr : s.Has x r) : t.Has x r := Nat.lt_of_lt_of_le hr (h.size x)

theorem Grows.offers (h : s.Grows t) (hr : s.Offers x r) : t.Offers x r := by
  cases x with
  | value =>
    obtain ⟨a, ha, hformal⟩ := hr
    exact ⟨a, h.values _ a ha, hformal⟩
  | _ => exact h.has hr

theorem Offers.has (h : s.Offers x r) : s.Has x r := by
  cases x with
  | value =>
    obtain ⟨a, ha, -⟩ := h
    exact (Array.getElem?_eq_some_iff.1 ha).1
  | _ => exact h

end Scene

namespace Draft

variable {d d₁ d' : Draft} {D : Scene} {m m' : MethodId} {bs bs' l : List (Option Nat × ValueId)}
  {v : ValueId} {isStatic : Bool} {arity : Nat} {B : MethodId → Prop}

/-- The method has a body, which binds `l`, as `D` tells. -/
def Binds (D : Scene) (d : Draft) (m : MethodId) (isStatic : Bool) (arity : Nat)
    (l : List (Option Nat × ValueId)) : Prop :=
  ∃ decl, d.scene.methods[m.index]? = some decl ∧ decl.hasBody = true ∧ decl.isStatic = isStatic ∧
    decl.params.length = arity ∧ decl.stmts.filterMap D.binding? = l

/-- What is recorded of the bindings of a method. -/
def recorded (d : Draft) (m : MethodId) (formals : Array ValueId) : List (Option Nat × ValueId) :=
  d.receivers[m]?.toList.map (fun v => (none, v)) ++
    formals.toList.zipIdx.map fun x => (some x.2, x.1)

/-- Own positions are right, the others are positions of `D`, and values are built from earlier
ones. -/
structure Fits (D : Scene) (d : Draft) : Prop where
  files : Tabled d.scene.files fun i f => f.id = ⟨i⟩ ∧ f.Refs D.Offers
  classes : Tabled d.scene.classes fun i c => c.id = ⟨i⟩ ∧ c.Refs D.Offers
  methods : Tabled d.scene.methods fun i m => m.id = ⟨i⟩ ∧ m.Refs D.Offers
  stmts : Tabled d.scene.stmts fun _ i => i.Refs D.Has
  values : Tabled d.scene.values fun i a => a.Refs D.Offers ∧ ∀ w ∈ a.operands, w.index < i

/-- What is recorded of a method is what its body binds. Of the methods with a body only those in `B`
may still be without a record. -/
structure Sound (D : Scene) (B : MethodId → Prop) (d : Draft) : Prop extends d.Fits D where
  platform : ∀ f ∈ d.platformFile, D.Offers .file f
  receivers : ∀ m v, d.receivers[m]? = some v → D.Offers .value v ∧ d.scene.Has .method m
  parameters : ∀ m formals, d.parameters[m]? = some formals →
    (∀ v ∈ formals.toList, D.Offers .value v) ∧
      ∃ isStatic, d.Binds D m isStatic formals.size (d.recorded m formals) ∧
        (isStatic = false → d.receivers[m]?.isSome)
  listed : ∀ m decl, d.scene.methods[m.index]? = some decl → decl.hasBody = true →
    B m ∨ d.parameters[m]?.isSome

/-- Values, locals and statements are added to the method `m`; the statements bind `bs`. -/
structure Writes (m : MethodId) (bs : List (Option Nat × ValueId)) (d d' : Draft) : Prop where
  grows : d.scene.Grows d'.scene
  tables : d'.receivers = d.receivers ∧ d'.parameters = d.parameters ∧
    d'.platformFile = d.platformFile
  bodies : ∀ (i : Nat) decl', d'.scene.methods[i]? = some decl' → decl'.hasBody = true →
    ∃ decl, d.scene.methods[i]? = some decl ∧ decl.hasBody = true
  binds : ∀ {D m' isStatic arity l}, d'.scene.Grows D → d.Binds D m' isStatic arity l →
    d'.Binds D m' isStatic arity (if m' = m then l ++ bs else l)
  fits : ∀ {D}, d'.scene.Grows D → d.Fits D → d'.Fits D

theorem Writes.trans (h : Writes m bs d d₁) (h' : Writes m bs' d₁ d') : Writes m (bs ++ bs') d d' where
  grows := h.grows.trans h'.grows
  tables := ⟨h'.tables.1.trans h.tables.1, h'.tables.2.1.trans h.tables.2.1,
    h'.tables.2.2.trans h.tables.2.2⟩
  bodies i decl hdecl hbody := by
    obtain ⟨decl₁, hdecl₁, hbody₁⟩ := h'.bodies i decl hdecl hbody
    exact h.bodies i decl₁ hdecl₁ hbody₁
  binds hD hb := by
    have hb := h'.binds hD (h.binds (h'.grows.trans hD) hb)
    split
    · next hm => simpa [hm] using hb
    · next hm => simpa [hm] using hb
  fits hD hd := h'.fits hD (h.fits (h'.grows.trans hD) hd)

/-- No statement is added that binds anything to a method with a record. -/
theorem Writes.sound (h : Writes m bs d d') (hD : d'.scene.Grows D)
    (hbs : bs = [] ∨ d.parameters[m]? = none) (hd : d.Sound D B) : d'.Sound D B where
  toFits := h.fits hD hd.toFits
  platform := h.tables.2.2 ▸ hd.platform
  receivers n v hv := by
    rw [h.tables.1] at hv
    exact ⟨(hd.receivers n v hv).1, h.grows.has (hd.receivers n v hv).2⟩
  parameters n formals hn := by
    rw [h.tables.2.1] at hn
    obtain ⟨hformals, isStatic, hbinds, hreceiver⟩ := hd.parameters n formals hn
    refine ⟨hformals, isStatic, ?_, h.tables.1 ▸ hreceiver⟩
    have hbinds := h.binds hD hbinds
    unfold recorded at hbinds ⊢
    rw [h.tables.1]
    split at hbinds
    · next heq =>
      subst heq
      rcases hbs with rfl | hnone
      · simpa using hbinds
      · cases hn.symm.trans hnone
    · exact hbinds
  listed n decl hdecl hbody := by
    obtain ⟨decl₀, hdecl₀, hbody₀⟩ := h.bodies n.index decl hdecl hbody
    rw [h.tables.2.1]
    exact hd.listed n decl₀ hdecl₀ hbody₀

section Writing

variable {a : Value} {i : StmtId} {kind : StmtKind} {name : String} {type : Ty}

theorem lift_bind_eq_ok {α β : Type} {x : Except Fault α} {f : α → Drafting β} {b : β} :
    ((liftM x : Drafting α) >>= f) d = .ok b d' ↔ ∃ a, x = .ok a ∧ f a d = .ok b d' := by
  cases x with
  | ok a => exact ⟨fun h => ⟨a, rfl, h⟩, by rintro ⟨_, ⟨⟩, h⟩; exact h⟩
  | error e => exact ⟨by rintro ⟨⟩, by rintro ⟨_, ⟨⟩, _⟩⟩

theorem Writes.refl (m : MethodId) (d : Draft) : Writes m [] d d where
  grows := .refl _
  tables := ⟨rfl, rfl, rfl⟩
  bodies _ decl hdecl hbody := ⟨decl, hdecl, hbody⟩
  binds _ hb := by simpa using hb
  fits _ hd := hd

theorem Writes.value {d₀ : Draft} (h₀ : Writes m bs d₀ d) (ha : a.Refs d.scene.Offers)
    (h : addValue a d = .ok v d') : Writes m bs d₀ d' ∧ d'.scene.values[v.index]? = some a := by
  cases h
  have hgrows : d.scene.Grows { d.scene with values := d.scene.values.push a } :=
    ⟨fun x => by cases x <;> simp [Scene.count], fun _ _ h => h, fun j b hb => by grind⟩
  refine ⟨⟨h₀.grows.trans hgrows, h₀.tables, h₀.bodies, fun hD => h₀.binds (hgrows.trans hD),
    fun hD hd => ?_⟩, by simp⟩
  have hfits := h₀.fits (hgrows.trans hD) hd
  refine { hfits with values := hfits.values.push ⟨ha.mono fun _ _ hr => ?_, fun w hw => ?_⟩ }
  · exact (hgrows.trans hD).offers hr
  · exact (ha.operands w hw).has

/-- A change of the body of a method, which adds the statements `is` to it. -/
theorem writes_body {f : Body → Body} (is : List StmtId) (hf : ∀ b, (f b).stmts.toList = b.stmts.toList ++ is)
    (hbs : ∀ D, d.scene.Grows D → is.filterMap D.binding? = bs)
    (hrefs : ∀ D, d.scene.Grows D → ∀ b : Body, b.Refs D.Offers → (f b).Refs D.Offers) :
    Writes m bs d { d with
      scene.methods := d.scene.methods.modify m.index fun decl =>
        { decl with body := decl.body.map f } } := by
  have hgrows : d.scene.Grows { d.scene with
      methods := d.scene.methods.modify m.index fun decl =>
        { decl with body := decl.body.map f } } :=
    ⟨fun x => by cases x <;> simp [Scene.count], fun _ _ h => h, fun _ _ h => h⟩
  refine ⟨hgrows, ⟨rfl, rfl, rfl⟩, fun j decl' hdecl hbody => ?_, fun {D m' _ _ l} hD hb => ?_,
    fun {D} hD hd => { hd with methods := hd.methods.modify fun decl hdecl => ⟨hdecl.1, ?_⟩ }⟩
  · rw [Array.getElem?_modify] at hdecl
    split at hdecl
    · obtain ⟨decl, hdecl, rfl⟩ := Option.map_eq_some_iff.1 hdecl
      exact ⟨decl, ‹_›, by simpa [MethodDecl.hasBody] using hbody⟩
    · exact ⟨decl', hdecl, hbody⟩
  · obtain ⟨decl, hdecl, hbody, hstatic, harity, rfl⟩ := hb
    obtain ⟨body, hbody⟩ := Option.isSome_iff_exists.1 hbody
    simp only [Binds, Array.getElem?_modify]
    by_cases hm : m' = m
    · subst hm
      simp only [if_true, hdecl, Option.map_some, Option.some.injEq, exists_eq_left']
      refine ⟨by simp [MethodDecl.hasBody, hbody], hstatic, harity, ?_⟩
      simp only [MethodDecl.stmts, hbody, Option.map_some, hf, List.filterMap_append,
        hbs D (hgrows.trans hD)]
    · rw [if_neg hm, if_neg fun h => hm (Ref.index_inj.1 h.symm)]
      exact ⟨decl, hdecl, by simp [MethodDecl.hasBody, hbody], hstatic, harity, rfl⟩
  · refine { hdecl.2 with body := fun b hb => ?_ }
    obtain ⟨b, hb, rfl⟩ := Option.map_eq_some_iff.1 hb
    exact hrefs D (hgrows.trans hD) b (hdecl.2.body b ‹_›)

/-- What a statement refers to exists, if what was there before `d₀` exists. -/
theorem Writes.stmt {d₀ : Draft} {b : Option (Option Nat × ValueId)} (h₀ : Writes m bs d₀ d)
    (h : addStmt m kind d = .ok i d')
    (hkind : ∀ D, d.scene.Grows D → d₀.Fits D → ∀ w ∈ kind.operands, D.Has .value w)
    (hb : ∀ D, d.scene.Grows D → D.stmts[d.scene.stmts.size]? = some ⟨m, kind⟩ →
      D.binding? ⟨d.scene.stmts.size⟩ = b) :
    Writes m (bs ++ b.toList) d₀ d' ∧ d.scene.Grows d'.scene := by
  simp only [addStmt, get_bind_run, modify_bind_run, lift_bind_eq_ok] at h
  obtain ⟨decl, hdecl, h⟩ := h
  cases h
  have hm : d.scene.Has .method m := (Array.getElem?_eq_some_iff.1 (Ref.fetch_eq_ok_iff.1 hdecl)).1
  have hgrows : d.scene.Grows { d.scene with stmts := d.scene.stmts.push ⟨m, kind⟩ } :=
    ⟨fun x => by cases x <;> simp [Scene.count], fun j b hb => by grind, fun _ _ h => h⟩
  have hnew : ∀ D, Scene.Grows { d.scene with stmts := d.scene.stmts.push ⟨m, kind⟩ } D →
      D.stmts[d.scene.stmts.size]? = some ⟨m, kind⟩ := fun D hD => hD.stmts _ _ (by simp)
  have hpush : Writes m bs d₀ { d with scene.stmts := d.scene.stmts.push ⟨m, kind⟩ } := by
    refine ⟨h₀.grows.trans hgrows, h₀.tables, h₀.bodies, fun hD => h₀.binds (hgrows.trans hD),
      fun hD hd => ?_⟩
    have hfits := h₀.fits (hgrows.trans hD) hd
    have hrefs := hkind _ (hgrows.trans hD) hd
    exact { hfits with stmts := hfits.stmts.push ⟨(hgrows.trans hD).has hm, hrefs⟩ }
  have hbody : Writes m b.toList { d with scene.stmts := d.scene.stmts.push ⟨m, kind⟩ } _ :=
    writes_body [⟨d.scene.stmts.size⟩]
      (f := fun b => { b with stmts := b.stmts.push ⟨d.scene.stmts.size⟩ }) (by simp) ?_ ?_
  · exact ⟨hpush.trans hbody, hgrows.trans hbody.grows⟩
  · intro D hD
    rw [List.filterMap_cons, hb D (hgrows.trans hD) (hnew D hD)]
    cases b <;> rfl
  · refine fun D hD b hb => ⟨hb.locals, fun j hj => ?_⟩
    rcases Array.mem_push.1 (Array.mem_toList_iff.1 hj) with hj | rfl
    · exact hb.stmts j (Array.mem_toList_iff.2 hj)
    · exact (Array.getElem?_eq_some_iff.1 (hnew D hD)).1

/-- Statements that bind nothing. -/
theorem Writes.plain {d₀ : Draft} (h₀ : Writes m [] d₀ d) (h : addStmt m kind d = .ok i d')
    (hkind : ∀ w ∈ kind.operands, d.scene.Offers .value w) : Writes m [] d₀ d' := by
  refine (h₀.stmt (b := none) h (fun D hD _ w hw => (hD.offers (hkind w hw)).has)
    fun D hD hi => ?_).1
  simp only [Scene.binding?, hi]
  cases kind with
  | assign target source =>
    obtain ⟨a, ha, hformal⟩ := hD.offers (hkind source (by simp [StmtKind.operands]))
    simp [ha, hformal]
  | _ => rfl

theorem writes_declareLocal (h : declareLocal m name type d = .ok v d') :
    Writes m [] d d' ∧ ∀ D, d'.scene.Grows D → d.Fits D → D.Offers .value v := by
  simp only [declareLocal, get_bind_run, lift_bind_eq_ok] at h
  obtain ⟨decl, hdecl, h⟩ := h
  cases hlocal : decl.localNamed? name with
  | some w =>
    rw [hlocal] at h
    cases h
    refine ⟨.refl m d, fun D _ hd => ?_⟩
    exact (hd.methods _ decl (Ref.fetch_eq_ok_iff.1 hdecl)).2.localNamed? hlocal
  | none =>
    rw [hlocal] at h
    obtain ⟨w, d₁, hw, h⟩ := bind_eq_ok.1 h
    obtain ⟨hvalue, hw⟩ := (Writes.refl m d).value ⟨by simp [Value.operands], by simp⟩ hw
    have hoffers : d₁.scene.Offers .value w := ⟨_, hw, rfl⟩
    cases h
    have hbody : Writes m [] d₁ _ := writes_body []
      (f := fun b => { b with locals := b.locals.insert name v }) (by simp) (by simp)
      fun D hD b hb => ⟨NameMap.forall_insert hb.locals (hD.offers hoffers), hb.stmts⟩
    exact ⟨hvalue.trans hbody, fun D hD _ => (hbody.grows.trans hD).offers hoffers⟩

/-- The binding of a receiver or parameter. -/
theorem writes_formal {d₂ : Draft} {w : ValueId} {formal : Option Nat} (ha : a.formal? = some formal)
    (h₁ : declareLocal m name type d = .ok v d₁) (h₂ : addValue a d₁ = .ok w d₂)
    (h₃ : Draft.assign m v w d₂ = .ok i d') :
    Writes m [(formal, v)] d d' ∧ ∀ D, d'.scene.Grows D → d.Fits D → D.Offers .value v := by
  have hrefs : a.Refs d₁.scene.Offers := by
    cases a <;> simp [Value.formal?] at ha <;> exact ⟨by simp [Value.operands], by simp⟩
  obtain ⟨hlocal, hv⟩ := writes_declareLocal h₁
  obtain ⟨hvalue, hw⟩ := (Writes.refl m d₁).value hrefs h₂
  have hstmt := (hlocal.trans hvalue).stmt (b := some (formal, v)) h₃ (fun D hD hd => ?_)
    fun D hD hi => ?_
  · exact ⟨hstmt.1, fun D hD => hv D (hvalue.grows.trans (hstmt.2.trans hD))⟩
  · refine List.forall_mem_cons.2 ⟨(hv D (hvalue.grows.trans hD) hd).has, ?_⟩
    exact List.forall_mem_singleton.2 (hD.has (Array.getElem?_eq_some_iff.1 hw).1)
  · simp [Scene.binding?, hi, hD.values _ _ hw, ha]

theorem writes_bindFormals {params : List (String × Ty)} {k : Nat} {locals : List ValueId}
    (h : bindFormals m k params d = .ok locals d') :
    Writes m ((locals.zipIdx k).map fun x => (some x.2, x.1)) d d' ∧
      locals.length = params.length ∧
      ∀ D, d'.scene.Grows D → d.Fits D → ∀ v ∈ locals, D.Offers .value v := by
  induction params generalizing k d locals with
  | nil =>
    cases h
    exact ⟨.refl m _, rfl, by simp⟩
  | cons param params ih =>
    obtain ⟨name, type⟩ := param
    obtain ⟨v, d₁, h₁, h⟩ := bind_eq_ok.1 h
    obtain ⟨w, d₂, h₂, h⟩ := bind_eq_ok.1 h
    obtain ⟨i, d₃, h₃, h⟩ := bind_eq_ok.1 h
    obtain ⟨rest, d₄, h₄, h⟩ := bind_eq_ok.1 h
    cases h
    obtain ⟨hfirst, hv⟩ := writes_formal rfl h₁ h₂ h₃
    obtain ⟨hrest, hlength, hoffers⟩ := ih h₄
    refine ⟨hfirst.trans hrest, by simp [hlength], fun D hD hd => List.forall_mem_cons.2 ?_⟩
    have hD₃ := hrest.grows.trans hD
    exact ⟨hv D hD₃ hd, hoffers D hD (hfirst.fits hD₃ hd)⟩

theorem writes_addCall {target : Option ValueId} (ha : a.Refs d.scene.Offers)
    (hformal : a.formal? = none) (htarget : ∀ t ∈ target, d.scene.Offers .value t)
    (h : addCall m target a d = .ok i d') : Writes m [] d d' := by
  obtain ⟨w, d₁, hw, h⟩ := bind_eq_ok.1 h
  obtain ⟨hvalue, hw⟩ := (Writes.refl m d).value ha hw
  have hoffers : d₁.scene.Offers .value w := ⟨a, hw, hformal⟩
  cases target with
  | none => exact hvalue.plain h (List.forall_mem_singleton.2 hoffers)
  | some t =>
    have ht := hvalue.grows.offers (htarget t rfl)
    exact hvalue.plain h (List.forall_mem_cons.2 ⟨ht, List.forall_mem_singleton.2 hoffers⟩)

theorem writes_addObject {target : ValueId} {owner : String} {args : List ValueId}
    (htarget : d.scene.Offers .value target) (hargs : ∀ w ∈ args, d.scene.Offers .value w)
    (h : addObject m target owner args d = .ok i d') : Writes m [] d d' := by
  obtain ⟨w, d₁, hw, h⟩ := bind_eq_ok.1 h
  obtain ⟨j, d₂, hj, h⟩ := bind_eq_ok.1 h
  obtain ⟨hvalue, hw⟩ := (Writes.refl m d).value ⟨by simp [Value.operands], by simp⟩ hw
  have hassign := hvalue.plain hj (List.forall_mem_cons.2
    ⟨hvalue.grows.offers htarget, List.forall_mem_singleton.2 ⟨_, hw, rfl⟩⟩)
  simp only [get_bind_run] at h
  split at h
  · obtain ⟨k, d₃, hk, h⟩ := bind_eq_ok.1 h
    cases h
    refine hassign.trans (writes_addCall ⟨List.forall_mem_cons.2 ?_, by simp⟩ rfl (by simp) hk)
    exact ⟨hassign.grows.offers htarget, fun w hw => hassign.grows.offers (hargs w hw)⟩
  · cases h
    exact hassign

end Writing

section Declaring

theorem Sound.withReceiver (hd : d.Sound D B) (hm : d.scene.Has .method m)
    (hnone : d.parameters[m]? = none) (hv : D.Offers .value v) :
    Sound D B { d with receivers := d.receivers.insert m v } where
  toFits := { hd with }
  platform := hd.platform
  receivers := forall_insert_map hd.receivers ⟨hv, hm⟩
  parameters n formals hn := by
    have hne : m ≠ n := by
      rintro rfl
      cases hn.symm.trans hnone
    simp only [recorded, getElem?_insert, if_neg hne]
    exact hd.parameters n formals hn
  listed := hd.listed

/-- With its record a method is complete. -/
theorem Sound.withParameters {formals : Array ValueId} (hd : d.Sound D fun n => B n ∨ n = m)
    (hformals : ∀ v ∈ formals.toList, D.Offers .value v)
    (hbinds : d.Binds D m isStatic formals.size (d.recorded m formals))
    (hreceiver : isStatic = false → d.receivers[m]?.isSome) :
    Sound D B { d with parameters := d.parameters.insert m formals } where
  toFits := { hd with }
  platform := hd.platform
  receivers := hd.receivers
  parameters := forall_insert_map hd.parameters ⟨hformals, isStatic, hbinds, hreceiver⟩
  listed n decl hdecl hbody := by
    rw [getElem?_insert]
    rcases hd.listed n decl hdecl hbody with (hB | rfl) | hsome
    · exact .inl hB
    · exact .inr (by simp)
    · exact .inr (by split <;> simp [hsome])

/-- The method `m` has a body, and its parameters are still to be bound. -/
structure Opened (D : Scene) (B : MethodId → Prop) (m : MethodId) (isStatic : Bool) (arity : Nat)
    (d : Draft) : Prop where
  sound : d.Sound D fun n => B n ∨ n = m
  fresh : d.parameters[m]? = none
  binds : d.Binds D m isStatic arity (d.recorded m #[])

theorem Opened.withReceiver (hd : d.Opened D B m isStatic arity) (h : Writes m [(none, v)] d d')
    (hD : d'.scene.Grows D) (hm : d.scene.Has .method m) (hnone : d.receivers[m]? = none)
    (hv : D.Offers .value v) :
    Opened D B m isStatic arity { d' with receivers := d'.receivers.insert m v } := by
  have hfresh := h.tables.2.1 ▸ hd.fresh
  refine ⟨(h.sound hD (.inr hd.fresh) hd.sound).withReceiver (h.grows.has hm) hfresh hv, hfresh, ?_⟩
  have hbinds : d'.Binds D m isStatic arity [(none, v)] := by
    simpa [recorded, hnone] using h.binds hD hd.binds
  simp only [recorded, getElem?_insert, if_true]
  exact hbinds

/-- The binding of the parameters of a method whose receiver is bound, if it has one. -/
theorem sound_bindFormals {params : List (String × Ty)} {n : MethodId} (isStatic : Bool)
    (h : (bindFormals m 0 params >>= fun locals =>
      modify (fun d => { d with parameters := d.parameters.insert m locals.toArray }) >>= fun _ =>
        pure m : Drafting MethodId) d = .ok n d') :
    d.scene.Grows d'.scene ∧ n = m ∧ ∀ D, d'.scene.Grows D →
      d.Opened D B m isStatic params.length → (isStatic = false → d.receivers[m]?.isSome) →
      d'.Sound D B := by
  obtain ⟨locals, d₁, h₁, h⟩ := bind_eq_ok.1 h
  cases h
  obtain ⟨hwrites, hlength, hoffers⟩ := writes_bindFormals h₁
  refine ⟨hwrites.grows, rfl, fun D hD hd hreceiver => ?_⟩
  have hbinds := hwrites.binds hD hd.binds
  refine (hwrites.sound hD (.inr hd.fresh) hd.sound).withParameters (hoffers D hD hd.sound.toFits) ?_
    (hwrites.tables.1 ▸ hreceiver)
  simpa [recorded, hwrites.tables.1, hlength] using hbinds

/-- A method that the class `owner` knows by `name`. -/
def withMethod (d : Draft) (owner : ClassId) (name : String) (decl : MethodDecl) : Draft := { d with
  scene.methods := d.scene.methods.push decl
  scene.classes := d.scene.classes.modify owner.index fun c =>
    { c with methods := c.methods.insert name ⟨d.scene.methods.size⟩ } }

theorem grows_withMethod (d : Draft) (owner : ClassId) (name : String) (decl : MethodDecl) :
    d.scene.Grows (d.withMethod owner name decl).scene :=
  ⟨fun x => by cases x <;> simp [Scene.count, withMethod], fun _ _ h => h, fun _ _ h => h⟩

/-- As long as its parameters are not bound, a new method with a body is without a record. -/
theorem Sound.withMethod {owner : ClassId} {name : String} {decl : MethodDecl}
    {B' : MethodId → Prop} (hd : d.Sound D B) (hB : ∀ n, B n → B' n)
    (hbody : decl.hasBody = true → B' ⟨d.scene.methods.size⟩)
    (hid : decl.id = ⟨d.scene.methods.size⟩) (hdecl : decl.Refs D.Offers) :
    (d.withMethod owner name decl).Sound D B' where
  toFits := { hd with
    classes := hd.classes.modify fun c hc =>
      ⟨hc.1, { hc.2 with methods := NameMap.forall_insert hc.2.methods (hid ▸ hdecl.id) }⟩
    methods := hd.methods.push ⟨hid, hdecl⟩ }
  platform := hd.platform
  receivers n v hv := ⟨(hd.receivers n v hv).1, (d.grows_withMethod ..).has (hd.receivers n v hv).2⟩
  parameters n formals hn := by
    obtain ⟨hformals, isStatic, ⟨decl₀, hdecl₀, hbinds⟩, hreceiver⟩ := hd.parameters n formals hn
    exact ⟨hformals, isStatic, ⟨decl₀, by grind [Draft.withMethod], hbinds⟩, hreceiver⟩
  listed n decl' hdecl' hbody' := by
    simp only [Draft.withMethod, Array.getElem?_push] at hdecl'
    split at hdecl'
    · next hn =>
      cases hdecl'
      cases Ref.index_inj.1 (show n.index = (⟨d.scene.methods.size⟩ : MethodId).index from hn)
      exact .inl (hbody hbody')
    · exact (hd.listed n decl' hdecl' hbody').imp_left (hB n)

/-- Nothing is recorded of a method before it is there. -/
theorem Sound.fresh (hd : d.Sound D B) : d.parameters[(⟨d.scene.methods.size⟩ : MethodId)]? = none ∧
    d.receivers[(⟨d.scene.methods.size⟩ : MethodId)]? = none := by
  refine ⟨Option.eq_none_iff_forall_ne_some.2 fun formals h => ?_,
    Option.eq_none_iff_forall_ne_some.2 fun v h => ?_⟩
  · obtain ⟨-, _, ⟨decl, hdecl, -⟩, -⟩ := hd.parameters _ formals h
    exact Nat.lt_irrefl _ (Array.getElem?_eq_some_iff.1 hdecl).1
  · exact Nat.lt_irrefl _ (hd.receivers _ v h).2

end Declaring

theorem sound_addMethodDecl {owner : ClassId} {name : String} {shape : Shape}
    {params : List (String × Ty)} {returnType : Ty}
    (h : addMethodDecl owner name shape params returnType d = .ok m d') :
    d.scene.Grows d'.scene ∧ d'.scene.Has .method m ∧ ∀ D, d'.scene.Grows D →
      (∀ n ∈ shape.outer, D.Has .method n) → d.Sound D B → d'.Sound D B := by
  simp only [addMethodDecl, get_bind_run, lift_bind_eq_ok, modify_bind_run] at h
  obtain ⟨c, hc, h⟩ := h
  have howner : d.scene.Has .classDecl owner :=
    (Array.getElem?_eq_some_iff.1 (Ref.fetch_eq_ok_iff.1 hc)).1
  generalize hdecl : ({ id := ⟨d.scene.methods.size⟩, .. } : MethodDecl) = decl at h
  change (_ : Drafting MethodId) (d.withMethod owner name decl) = _ at h
  have hgrows := d.grows_withMethod owner name decl
  have hid : (d.withMethod owner name decl).scene.Has .method ⟨d.scene.methods.size⟩ := by
    simp [Scene.Has, Scene.count, withMethod]
  have hnew : decl.id = ⟨d.scene.methods.size⟩ ∧ decl.hasBody = shape.hasBody ∧
      decl.isStatic = shape.isStatic ∧ decl.params.length = params.length ∧ decl.stmts = [] := by
    subst hdecl
    cases hb : shape.hasBody <;> simp [MethodDecl.hasBody, MethodDecl.stmts]
  have hrefs : ∀ D, (d.withMethod owner name decl).scene.Grows D →
      (∀ n ∈ shape.outer, D.Has .method n) → decl.Refs D.Offers := by
    subst hdecl
    refine fun D hD houter => ⟨hD.has hid, (hgrows.trans hD).has howner, fun b hb => ?_, houter⟩
    split at hb
    · cases hb
      exact ⟨by rintro _ ⟨⟩, by rintro _ ⟨⟩⟩
    · cases hb
  clear hdecl
  by_cases hbody : shape.hasBody = true
  · rw [if_pos hbody] at h
    have hopened : ∀ D, (d.withMethod owner name decl).scene.Grows D →
        (∀ n ∈ shape.outer, D.Has .method n) → d.Sound D B → (d.withMethod owner name decl).Opened D
          B ⟨d.scene.methods.size⟩ shape.isStatic params.length := fun D hD houter hd =>
      ⟨hd.withMethod (fun _ => .inl) (fun _ => .inr rfl) hnew.1 (hrefs D hD houter), hd.fresh.1,
        decl, by simp [withMethod], by rw [hnew.2.1, hbody], hnew.2.2.1, hnew.2.2.2.1,
        by simp [recorded, withMethod, hd.fresh.2, hnew.2.2.2.2]⟩
    cases hstatic : shape.isStatic with
    | true =>
      rw [if_neg (by simp [hstatic])] at h
      obtain ⟨hformals, rfl, hend⟩ := sound_bindFormals (B := B) true h
      refine ⟨hgrows.trans hformals, hformals.has hid, fun D hD houter hd => ?_⟩
      exact hend D hD (hstatic ▸ hopened D (hformals.trans hD) houter hd) (by simp)
    | false =>
      rw [if_pos (by simp [hstatic])] at h
      obtain ⟨v, d₁, h₁, h⟩ := bind_eq_ok.1 h
      obtain ⟨w, d₂, h₂, h⟩ := bind_eq_ok.1 h
      obtain ⟨i, d₃, h₃, h⟩ := bind_eq_ok.1 h
      rw [modify_bind_run] at h
      obtain ⟨hwrites, hv⟩ := writes_formal rfl h₁ h₂ h₃
      obtain ⟨hformals, rfl, hend⟩ := sound_bindFormals (B := B) false h
      refine ⟨(hgrows.trans hwrites.grows).trans hformals, hformals.has (hwrites.grows.has hid),
        fun D hD houter hd => ?_⟩
      have hD₃ := hformals.trans hD
      have hd₁ := hopened D (hwrites.grows.trans hD₃) houter hd
      rw [hstatic] at hd₁
      exact hend D hD (hd₁.withReceiver hwrites hD₃ hid hd.fresh.2 (hv D hD₃ hd₁.sound.toFits))
        (by simp)
  · rw [if_neg hbody] at h
    cases h
    refine ⟨hgrows, hid, fun D hD houter hd => ?_⟩
    exact hd.withMethod (fun _ h => h) (fun h => absurd (hnew.2.1 ▸ h) hbody) hnew.1 (hrefs D hD houter)

theorem sound_addClassDecl {name : String} {superName space : Option String} {file : FileId}
    {isPlatform : Bool} {c : ClassId}
    (h : addClassDecl name superName file space isPlatform d = .ok c d') :
    d.scene.Grows d'.scene ∧ d'.scene.Has .classDecl c ∧ ∀ D, d'.scene.Grows D →
      D.Has .file file → d.Sound D B → d'.Sound D B := by
  cases h
  have hc : ∀ c, d.scene.classes.size < (d.scene.classes.push c).size := by simp
  refine ⟨⟨fun x => by cases x <;> simp [Scene.count], fun _ _ h => h, fun _ _ h => h⟩, hc _,
    fun D hD hfile hd => ?_⟩
  exact { hd with
    classes := hd.classes.push ⟨rfl, hD.has (hc _), hfile, by rintro _ ⟨⟩⟩ }

theorem grows_withFiles (d : Draft) (files : Array SourceFile) (h : d.scene.files.size ≤ files.size) :
    d.scene.Grows { d.scene with files } :=
  ⟨fun x => by cases x <;> simp [Scene.count, h], fun _ _ h => h, fun _ _ h => h⟩

/-- The class of a file is there before the file, and the file before its method. -/
theorem sound_addFile {name : String} {f : FileId} (h : addFile name d = .ok f d') :
    d.scene.Grows d'.scene ∧ d'.scene.Has .file f ∧
      ∀ D, d'.scene.Grows D → d.Sound D B → d'.Sound D B := by
  simp only [addFile, get_bind_run] at h
  obtain ⟨c, d₁, hc, h⟩ := bind_eq_ok.1 h
  rw [modify_bind_run] at h
  obtain ⟨m, d₃, hm, h⟩ := bind_eq_ok.1 h
  cases h
  have hfiles : d₁.scene.files = d.scene.files := by
    cases hc
    rfl
  obtain ⟨hgrows, hc, hclass⟩ := sound_addClassDecl (B := B) hc
  have hgrows₁ := grows_withFiles d₁ (d₁.scene.files.push
    ⟨⟨d.scene.files.size⟩, name, c, ⟨0⟩, ∅, ∅⟩) (by simp)
  obtain ⟨hgrows₂, hm, hmethod⟩ := sound_addMethodDecl (B := B) hm
  have hgrows₃ := grows_withFiles d₃ (d₃.scene.files.modify d.scene.files.size
    fun f => { f with moduleMethod := m }) (by simp)
  have hf : d₃.scene.Has .file ⟨d.scene.files.size⟩ := hgrows₂.has (by
    simp [Scene.Has, Scene.count, hfiles])
  refine ⟨((hgrows.trans hgrows₁).trans hgrows₂).trans hgrows₃, hgrows₃.has hf, fun D hD hd => ?_⟩
  have hD₃ := hgrows₃.trans hD
  have hD₂ := hgrows₂.trans hD₃
  have hD₁ := hgrows₁.trans hD₂
  have hm := hD₃.has hm
  have hd₁ := hclass D hD₁ (hD₃.has hf) hd
  have hd₂ := hmethod D hD₃ (by simp) { hd₁ with
    files := hd₁.files.push ⟨by rw [hfiles], hD₃.has hf, hD₁.has hc, Nat.zero_lt_of_lt hm,
      by rintro _ ⟨⟩⟩ }
  exact { hd₂ with files := hd₂.files.modify fun f hf => ⟨hf.1, { hf.2 with moduleMethod := hm }⟩ }

theorem sound_platform {f : FileId} (h : platform d = .ok f d') :
    d.scene.Grows d'.scene ∧ ∀ D, d'.scene.Grows D → d.Sound D B → d'.Sound D B ∧ D.Has .file f := by
  simp only [platform, get_bind_run] at h
  cases hf : d.platformFile with
  | some g =>
    rw [hf] at h
    cases h
    exact ⟨.refl _, fun D _ hd => ⟨hd, hd.platform _ hf⟩⟩
  | none =>
    rw [hf] at h
    obtain ⟨g, d₁, hg, h⟩ := bind_eq_ok.1 h
    cases h
    obtain ⟨hgrows, hg, hsound⟩ := sound_addFile (B := B) hg
    refine ⟨hgrows, fun D hD hd => ⟨?_, hD.has hg⟩⟩
    have hd₁ := hsound D hD hd
    exact { hd₁ with
      platform := by
        rintro _ ⟨⟩
        exact hD.has hg }

end Draft

end PointsTo
