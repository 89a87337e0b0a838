import PointsTo.Proofs.Analysis.Reachable
import PointsTo.Proofs.Scene.Drafts

/-! Scenes that are built in steps, each of which goes on from what the steps before it gave. They are
well-formed, and no analysis of them misses the binding of a receiver. -/
namespace PointsTo

namespace Draft

/-- The table that the position a step gives is one of. Those of statements are of no use to later
steps. -/
def Step.table : Step → Option Table
  | .file .. => some .file
  | .classDecl .. | .platformClass .. => some .classDecl
  | .moduleMethod .. | .method .. | .staticMethod .. | .abstractMethod .. | .function ..
  | .closure .. | .platformMethod .. => some .method
  | .receiver .. | .parameter .. | .var .. | .value .. => some .value
  | .assign .. | .call .. | .object .. | .ret .. | .retVoid .. | .exportLocal ..
  | .importLocal .. => none

/-- The position that a step gives with the result `r`. -/
def Step.Gives (step : Step) (r : Option Nat) : Positions := fun t x =>
  step.table = some t ∧ r = some x.index

/-- Whatever the step refers to is in `P`, and it is no attempt to add a receiver or parameter. -/
def Step.Takes (P : Positions) : Step → Prop
  | .file .. | .platformClass .. => True
  | .moduleMethod f | .classDecl f .. | .function f .. | .importLocal f .. => P .file f
  | .method owner .. | .staticMethod owner .. | .abstractMethod owner ..
  | .platformMethod owner .. => P .classDecl owner
  | .closure m .. | .receiver m | .parameter m _ | .var m .. | .retVoid m => P .method m
  | .value a => a.Refs P ∧ a.formal? = none
  | .assign m target source => P .method m ∧ P .value target ∧ P .value source
  | .call m target a =>
    P .method m ∧ (∀ v ∈ target, P .value v) ∧ a.Refs P ∧ a.formal? = none
  | .object m target _ args => P .method m ∧ P .value target ∧ ∀ v ∈ args, P .value v
  | .ret m v => P .method m ∧ P .value v
  | .exportLocal f _ v => P .file f ∧ P .value v

theorem Step.Takes.mono {P Q : Positions} (hPQ : ∀ t x, P t x → Q t x) {step : Step}
    (h : step.Takes P) : step.Takes Q := by
  cases step with
  | file | platformClass => trivial
  | value => exact ⟨h.1.mono hPQ, h.2⟩
  | assign => exact ⟨hPQ _ _ h.1, hPQ _ _ h.2.1, hPQ _ _ h.2.2⟩
  | call => exact ⟨hPQ _ _ h.1, fun v hv => hPQ _ _ (h.2.1 v hv), h.2.2.1.mono hPQ, h.2.2.2⟩
  | object => exact ⟨hPQ _ _ h.1, hPQ _ _ h.2.1, fun v hv => hPQ _ _ (h.2.2 v hv)⟩
  | ret | exportLocal => exact ⟨hPQ _ _ h.1, hPQ _ _ h.2⟩
  | _ => exact hPQ _ _ h

/-- The drafts that steps lead to, and the positions that they have given. -/
inductive Drafted : Positions → Draft → Prop where
  | start : Drafted (fun _ _ => False) {}
  | step {G : Positions} {d d' : Draft} {r : Option Nat} (step : Step) : Drafted G d →
      step.Takes G → step.run d = .ok r d' → Drafted (fun t x => G t x ∨ step.Gives r t x) d'

variable {d d' : Draft} {D : Scene} {m : MethodId} {r : Option Nat} {Q : Scene → Prop}

/-- A step that leads from `d` to `d'`, after which `Q` holds of whatever the scene becomes. -/
structure Leads (d d' : Draft) (Q : Scene → Prop) : Prop where
  grows : d.scene.Grows d'.scene
  sound : ∀ D, d'.scene.Grows D → d.Sound D (fun _ => False) → d'.Sound D (fun _ => False) ∧ Q D

theorem Writes.leads (h : Writes m [] d d') (hQ : ∀ D, d'.scene.Grows D → d.Fits D → Q D) :
    Leads d d' Q :=
  ⟨h.grows, fun D hD hd => ⟨h.sound hD (.inl rfl) hd, hQ D hD hd.toFits⟩⟩

theorem Step.forall_gives {step : Step} {t : Table} {x : Ref t} {P : Positions}
    (ht : step.table = some t) (hx : P t x) : ∀ t y, step.Gives (some x.index) t y → P t y := by
  rintro _ ⟨y⟩ ⟨hy, hindex⟩
  cases ht.symm.trans hy
  cases hindex
  exact hx

theorem leads_method {step : Step} {owner : ClassId} {name : String} {shape : Shape}
    {params : List (String × Ty)} {returnType : Ty} (hstep : step.table = some .method)
    (houter : ∀ D, d.scene.Grows D → d.Fits D → ∀ n ∈ shape.outer, D.Has .method n)
    (h : (addMethodDecl owner name shape params returnType >>= fun n =>
      pure (some n.index) : Drafting (Option Nat)) d = .ok r d') :
    Leads d d' fun D => ∀ t x, step.Gives r t x → D.Offers t x := by
  obtain ⟨n, d₁, hn, h⟩ := bind_eq_ok.1 h
  cases h
  obtain ⟨hgrows, hhas, hsound⟩ := sound_addMethodDecl (B := fun _ => False) hn
  refine ⟨hgrows, fun D hD hd => ⟨hsound D hD ?_ hd, Step.forall_gives hstep (hD.has hhas)⟩⟩
  exact houter D (hgrows.trans hD) hd.toFits

theorem leads_file {f : FileId} {g : SourceFile → SourceFile} (hid : ∀ file, (g file).id = file.id)
    (hrefs : ∀ D, d.scene.Grows D → ∀ file : SourceFile, file.Refs D.Offers → (g file).Refs D.Offers)
    (hQ : ∀ D, Q D) : Leads d { d with scene.files := d.scene.files.modify f.index g } Q := by
  have hgrows := grows_withFiles d (d.scene.files.modify f.index g) (by simp)
  refine ⟨hgrows, fun D hD hd => ⟨{ hd with files := hd.files.modify fun file hfile => ?_ }, hQ D⟩⟩
  exact ⟨(hid file).trans hfile.1, hrefs D (hgrows.trans hD) file hfile.2⟩

/-- One step keeps the records right, and what it gives may be passed on. -/
theorem leads_step {step : Step} (htakes : step.Takes d.scene.Offers) (h : step.run d = .ok r d') :
    Leads d d' fun D => ∀ t x, step.Gives r t x → D.Offers t x := by
  have hnone (h : step.table = none) (D : Scene) : ∀ t x, step.Gives r t x → D.Offers t x :=
    fun t x hx => by cases h.symm.trans hx.1
  cases step with
  | file name =>
    obtain ⟨f, d₁, hf, h⟩ := bind_eq_ok.1 h
    cases h
    obtain ⟨hgrows, hhas, hsound⟩ := sound_addFile (B := fun _ => False) hf
    exact ⟨hgrows, fun D hD hd => ⟨hsound D hD hd, Step.forall_gives rfl (hD.has hhas)⟩⟩
  | moduleMethod f =>
    simp only [Step.run, get_bind_run, lift_bind_eq_ok] at h
    obtain ⟨file, hfile, h⟩ := h
    cases h
    refine ⟨.refl _, fun D _ hd => ⟨hd, Step.forall_gives rfl ?_⟩⟩
    exact (hd.files _ file (Ref.fetch_eq_ok_iff.1 hfile)).2.moduleMethod
  | classDecl f name superName =>
    obtain ⟨c, d₁, hc, h⟩ := bind_eq_ok.1 h
    cases h
    obtain ⟨hgrows, hhas, hsound⟩ := sound_addClassDecl (B := fun _ => False) hc
    refine ⟨hgrows, fun D hD hd => ⟨hsound D hD ?_ hd, Step.forall_gives rfl (hD.has hhas)⟩⟩
    exact (hgrows.trans hD).has htakes
  | platformClass name superName space =>
    obtain ⟨f, d₁, hf, h⟩ := bind_eq_ok.1 h
    obtain ⟨c, d₂, hc, h⟩ := bind_eq_ok.1 h
    cases h
    obtain ⟨hgrows₁, hsound₁⟩ := sound_platform (B := fun _ => False) hf
    obtain ⟨hgrows, hhas, hsound⟩ := sound_addClassDecl (B := fun _ => False) hc
    refine ⟨hgrows₁.trans hgrows, fun D hD hd => ?_⟩
    obtain ⟨hd₁, hf⟩ := hsound₁ D (hgrows.trans hD) hd
    exact ⟨hsound D hD hf hd₁, Step.forall_gives rfl (hD.has hhas)⟩
  | method | staticMethod | abstractMethod | platformMethod =>
    exact leads_method rfl (by simp) h
  | function f name params returnType =>
    simp only [Step.run, get_bind_run, lift_bind_eq_ok] at h
    obtain ⟨file, hfile, h⟩ := h
    refine leads_method rfl (fun D _ hd n hn => ?_) h
    cases hn
    exact (hd.files _ file (Ref.fetch_eq_ok_iff.1 hfile)).2.moduleMethod
  | closure outer name params returnType =>
    simp only [Step.run, get_bind_run, lift_bind_eq_ok] at h
    obtain ⟨decl, hdecl, h⟩ := h
    refine leads_method rfl (fun D hD _ n hn => ?_) h
    cases hn
    exact hD.has htakes
  | receiver m =>
    simp only [Step.run, get_bind_run] at h
    cases hv : d.receivers[m]? with
    | none =>
      rw [hv] at h
      cases h
    | some v =>
      rw [hv] at h
      cases h
      exact ⟨.refl _, fun D _ hd => ⟨hd, Step.forall_gives rfl (hd.receivers m v hv).1⟩⟩
  | parameter m index =>
    simp only [Step.run, get_bind_run] at h
    cases hv : d.parameters[m]?.bind (·[index]?) with
    | none =>
      rw [hv] at h
      cases h
    | some v =>
      rw [hv] at h
      cases h
      obtain ⟨formals, hformals, hv⟩ := Option.bind_eq_some_iff.1 hv
      refine ⟨.refl _, fun D _ hd => ⟨hd, Step.forall_gives rfl ?_⟩⟩
      exact (hd.parameters m formals hformals).1 v
        (Array.mem_toList_iff.2 (Array.mem_of_getElem? hv))
  | var m name type =>
    obtain ⟨v, d₁, hv, h⟩ := bind_eq_ok.1 h
    cases h
    obtain ⟨hwrites, hoffers⟩ := writes_declareLocal hv
    exact hwrites.leads fun D hD hd => Step.forall_gives rfl (hoffers D hD hd)
  | value a =>
    obtain ⟨v, d₁, hv, h⟩ := bind_eq_ok.1 h
    cases h
    obtain ⟨hwrites, hv⟩ := (Writes.refl ⟨0⟩ d).value htakes.1 hv
    exact hwrites.leads fun D hD _ =>
      Step.forall_gives rfl (hD.offers (show Scene.Offers _ .value v from ⟨a, hv, htakes.2⟩))
  | assign m target source =>
    obtain ⟨i, d₁, hi, h⟩ := bind_eq_ok.1 h
    cases h
    refine ((Writes.refl m d).plain hi ?_).leads fun D _ _ => hnone rfl D
    exact List.forall_mem_cons.2 ⟨htakes.2.1, List.forall_mem_singleton.2 htakes.2.2⟩
  | call m target a =>
    obtain ⟨i, d₁, hi, h⟩ := bind_eq_ok.1 h
    cases h
    exact (writes_addCall htakes.2.2.1 htakes.2.2.2 htakes.2.1 hi).leads fun D _ _ => hnone rfl D
  | object m target owner args =>
    obtain ⟨i, d₁, hi, h⟩ := bind_eq_ok.1 h
    cases h
    exact (writes_addObject htakes.2.1 htakes.2.2 hi).leads fun D _ _ => hnone rfl D
  | ret m v =>
    obtain ⟨i, d₁, hi, h⟩ := bind_eq_ok.1 h
    cases h
    refine ((Writes.refl m d).plain hi ?_).leads fun D _ _ => hnone rfl D
    exact List.forall_mem_singleton.2 htakes.2
  | retVoid m =>
    obtain ⟨i, d₁, hi, h⟩ := bind_eq_ok.1 h
    cases h
    refine ((Writes.refl m d).plain hi ?_).leads fun D _ _ => hnone rfl D
    simp [StmtKind.operands]
  | exportLocal f name v =>
    simp only [Step.run, get_bind_run, lift_bind_eq_ok] at h
    obtain ⟨_, _, h⟩ := h
    cases h
    exact leads_file (fun _ => rfl) (fun D hD file hfile => { hfile with
      exports := NameMap.forall_insert hfile.exports (hD.offers htakes.2) }) (hnone rfl)
  | importLocal f name origin =>
    simp only [Step.run, get_bind_run, lift_bind_eq_ok] at h
    obtain ⟨_, _, h⟩ := h
    cases h
    exact leads_file (fun _ => rfl) (fun _ _ _ hfile => { hfile with }) (hnone rfl)

/-- Whatever is added later, the records are right. -/
theorem Drafted.sound {G : Positions} (h : Drafted G d) :
    (∀ D, d.scene.Grows D → d.Sound D fun _ => False) ∧ ∀ t x, G t x → d.scene.Offers t x := by
  induction h with
  | start =>
    refine ⟨fun D _ => ⟨⟨?_, ?_, ?_, ?_, ?_⟩, ?_, ?_, ?_, ?_⟩, fun _ _ => False.elim⟩ <;>
      simp [Tabled]
  | step step _ htakes hrun ih =>
    obtain ⟨hsound, hoffers⟩ := ih
    obtain ⟨hgrows, hleads⟩ := leads_step (htakes.mono hoffers) hrun
    refine ⟨fun D hD => (hleads D hD (hsound D (hgrows.trans hD))).1, fun t x hx => ?_⟩
    rcases hx with hx | hx
    · exact hgrows.offers (hoffers t x hx)
    · exact (hleads _ (.refl _) (hsound _ hgrows)).2 t x hx

end Draft

/-! What a scene recovers from the statements of a method. -/

namespace Scene

variable {s : Scene} {i : StmtId} {is : List StmtId} {v : ValueId}
  {l : List (Option Nat × ValueId)}

/-- The slots of the parameters after a binding. -/
def place (slots : Array (Option ValueId)) (b : Option Nat × ValueId) : Array (Option ValueId) :=
  match b.1 with
  | some index => slots.setIfInBounds index (some b.2)
  | none => slots

theorem size_place (slots : Array (Option ValueId)) (b : Option Nat × ValueId) :
    (place slots b).size = slots.size := by
  unfold place
  split <;> simp

/-- A statement is read by what it binds. -/
theorem WellFormed.binding?_eq (hs : s.WellFormed) (hi : s.Has .stmt i) :
    s.bindsReceiver i = .ok ((s.binding? i).any (·.1.isNone)) ∧
    (∀ b ∈ s.binding? i, ∃ stmt, s.stmt i = .ok stmt ∧ stmt.target? = some b.2) ∧
    ∀ slots, (∀ b ∈ s.binding? i, ∀ k ∈ b.1, k < slots.size) →
      s.bindParameters slots i = .ok ((s.binding? i).elim slots (place slots)) := by
  obtain ⟨⟨m, kind⟩, hstmt, hrefs⟩ := hs.stmt hi
  have hi := Ref.fetch_eq_ok_iff.1 hstmt
  simp only [Scene.bindsReceiver, Scene.bindParameters, Scene.binding?, hstmt, hi]
  cases kind with
  | assign target source =>
    obtain ⟨a, ha, -⟩ := hs.value (hrefs.operands source (by simp [StmtKind.operands]))
    have hsource := Ref.fetch_eq_ok_iff.1 ha
    simp only [hsource, Option.bind_some, Bind.bind, Except.bind, Stmt.source?, Stmt.target?, ha]
    cases a with
    | parameter index type =>
      refine ⟨rfl, by simp, fun slots h => ?_⟩
      have hindex : index < slots.size := by simpa [Value.formal?] using h
      simp [bindParameter, hindex, Value.formal?, place]
    | self owner => exact ⟨rfl, by simp, fun _ _ => rfl⟩
    | _ => exact ⟨rfl, by simp, fun _ _ => rfl⟩
  | _ => exact ⟨rfl, by simp, fun _ _ => rfl⟩

theorem WellFormed.findM?_bindsReceiver (hs : s.WellFormed) (his : ∀ i ∈ is, s.Has .stmt i)
    (hl : is.filterMap s.binding? = (none, v) :: l) :
    ∃ i ∈ is, is.findM? s.bindsReceiver = .ok (some i) ∧ s.binding? i = some (none, v) := by
  induction is with
  | nil => cases hl
  | cons i is ih =>
    obtain ⟨hi, his⟩ := List.forall_mem_cons.1 his
    simp only [List.findM?, (hs.binding?_eq hi).1]
    rw [List.filterMap_cons] at hl
    cases hb : s.binding? i with
    | none =>
      rw [hb] at hl
      obtain ⟨j, hj, hfind, hbinding⟩ := ih his hl
      exact ⟨j, .tail _ hj, hfind, hbinding⟩
    | some b =>
      rw [hb] at hl
      cases hl
      exact ⟨i, .head _, rfl, hb⟩

theorem WellFormed.foldlM_bindParameters (hs : s.WellFormed) (slots : Array (Option ValueId))
    (his : ∀ i ∈ is, s.Has .stmt i)
    (hslots : ∀ b ∈ is.filterMap s.binding?, ∀ k ∈ b.1, k < slots.size) :
    is.foldlM s.bindParameters slots = .ok ((is.filterMap s.binding?).foldl place slots) := by
  induction is generalizing slots with
  | nil => rfl
  | cons i is ih =>
    obtain ⟨hi, his⟩ := List.forall_mem_cons.1 his
    rw [List.foldlM_cons, List.filterMap_cons]
    rw [List.filterMap_cons] at hslots
    cases hb : s.binding? i with
    | none =>
      rw [(hs.binding?_eq hi).2.2 slots (by simp [hb]), hb]
      rw [hb] at hslots
      exact ih slots his hslots
    | some b =>
      rw [hb] at hslots
      obtain ⟨hfirst, hrest⟩ := List.forall_mem_cons.1 hslots
      rw [(hs.binding?_eq hi).2.2 slots (by simpa [hb] using hfirst), hb]
      exact ih _ his fun c hc k hk => size_place slots b ▸ hrest c hc k hk

/-- Bindings in order fill the slots one after the other. -/
theorem foldl_place {vs : List ValueId} {k : Nat} {slots : Array (Option ValueId)}
    (h : slots.size = k + vs.length) :
    (((vs.zipIdx k).map fun x => (some x.2, x.1)).foldl place slots).toList =
      slots.toList.take k ++ vs.map some := by
  induction vs generalizing k slots with
  | nil => simp [List.take_of_length_le, h]
  | cons v vs ih =>
    rw [List.length_cons] at h
    have hk : k < slots.size := by omega
    simp only [List.zipIdx_cons, List.map_cons, List.foldl_cons, place]
    rw [ih (by simp; omega), Array.toList_setIfInBounds, List.take_set, List.take_add_one]
    simp [hk, Nat.min_eq_left hk.le]

end Scene

namespace Draft

variable {G : Positions} {d : Draft} {D : Scene} {m : MethodId} {decl : MethodDecl}

/-- In a finished draft every method with a body has its record. -/
theorem Sound.exists_record (hd : d.Sound D fun _ => False)
    (hdecl : d.scene.methods[m.index]? = some decl) (hbody : decl.hasBody = true) :
    ∃ formals, d.parameters[m]? = some formals ∧ formals.size = decl.params.length ∧
      decl.stmts.filterMap D.binding? = d.recorded m formals ∧
      (decl.isStatic = false → d.receivers[m]?.isSome) := by
  obtain ⟨formals, hformals⟩ :=
    Option.isSome_iff_exists.1 ((hd.listed m decl hdecl hbody).resolve_left id)
  obtain ⟨-, _, ⟨decl', hdecl', -, rfl, hsize, hbinds⟩, hreceiver⟩ := hd.parameters m formals hformals
  cases hdecl.symm.trans hdecl'
  exact ⟨formals, hformals, hsize.symm, hbinds, hreceiver⟩

theorem lt_of_mem_recorded {formals : Array ValueId} {b : Option Nat × ValueId}
    (hb : b ∈ d.recorded m formals) : ∀ k ∈ b.1, k < formals.size := by
  rintro k hk
  rcases List.mem_append.1 hb with hb | hb
  · obtain ⟨v, -, rfl⟩ := List.mem_map.1 hb
    cases hk
  · obtain ⟨x, hx, rfl⟩ := List.mem_map.1 hb
    cases hk
    simpa using (List.mem_zipIdx hx).2.1

theorem foldl_recorded {formals : Array ValueId} {n : Nat} (hn : formals.size = n) :
    (d.recorded m formals).foldl Scene.place (.replicate n none) = formals.map some := by
  have hreceiver : (d.receivers[m]?.toList.map fun v => ((none : Option Nat), v)).foldl Scene.place
      (.replicate n none) = .replicate n none := by
    cases d.receivers[m]? <;> rfl
  rw [recorded, List.foldl_append, hreceiver, ← Array.toList_inj,
    Scene.foldl_place (by simp [hn])]
  simp

theorem Drafted.ordered (h : Drafted G d) : d.scene.Ordered := by
  have hd := h.sound.1 d.scene (.refl _)
  have hget : ∀ {α : Type} {xs : Array α} {x : α × Nat}, x ∈ xs.toList.zipIdx →
      xs[x.2]? = some x.1 := fun hx => by simpa using List.mem_zipIdx_iff_getElem?.1 hx
  refine ⟨fun x hx => (hd.files _ _ (hget hx)).1, fun x hx => (hd.classes _ _ (hget hx)).1,
    fun x hx => (hd.methods _ _ (hget hx)).1, ⟨?_, ?_, ?_, ?_, ?_⟩,
    fun x hx => (hd.values _ _ (hget hx)).2, ?_⟩
  all_goals
    intro x hx
    obtain ⟨i, hi⟩ := Array.mem_iff_getElem?.1 hx
  · have hf := (hd.files i x hi).2
    exact { hf with exports := fun v hv => (hf.exports v hv).has }
  · exact { (hd.classes i x hi).2 with }
  · have hm := (hd.methods i x hi).2
    exact { hm with body := fun b hb => { hm.body b hb with
      locals := fun v hv => ((hm.body b hb).locals v hv).has } }
  · exact hd.stmts i x hi
  · exact (hd.values i x hi).1.mono fun _ _ => Scene.Offers.has
  · intro j hj
    have hbody : x.hasBody = true := by
      cases hb : x.body <;> simp_all [MethodDecl.stmts, MethodDecl.hasBody]
    obtain ⟨formals, -, hsize, hbinds, -⟩ := hd.exists_record (m := ⟨i⟩) hi hbody
    unfold Scene.bindsOwn
    split
    · next target source hstmt =>
      split
      · next index type hvalue =>
        have hb : d.scene.binding? j = some (some index, target) := by
          simp [Scene.binding?, Ref.fetch_eq_ok_iff.1 hstmt, Ref.fetch_eq_ok_iff.1 hvalue,
            Value.formal?]
        have hmem := hbinds ▸ List.mem_filterMap.2 ⟨j, hj, hb⟩
        simpa [hsize] using lt_of_mem_recorded hmem index rfl
      · rfl
    · rfl

/-- The scene finds the receiver that is recorded. -/
theorem Drafted.receiverLocal?_eq (h : Drafted G d) (hdecl : d.scene.method m = .ok decl)
    (hbody : decl.hasBody = true) (hstatic : decl.isStatic = false) :
    ∃ v, d.receivers[m]? = some v ∧ d.scene.receiverLocal? m = .ok (some v) := by
  have hs := h.ordered.wellFormed
  have hget := Ref.fetch_eq_ok_iff.1 hdecl
  have hstmts := (hs.refs.methods decl (Array.mem_of_getElem? hget)).stmts
  obtain ⟨formals, -, -, hbinds, hreceiver⟩ :=
    (h.sound.1 d.scene (.refl _)).exists_record hget hbody
  obtain ⟨v, hv⟩ := Option.isSome_iff_exists.1 (hreceiver hstatic)
  rw [recorded, hv] at hbinds
  obtain ⟨i, hi, hfind, hb⟩ := hs.findM?_bindsReceiver hstmts hbinds
  obtain ⟨stmt, hstmt, htarget⟩ := (hs.binding?_eq (hstmts i hi)).2.1 _ hb
  refine ⟨v, hv, ?_⟩
  simp only [Scene.receiverLocal?, Scene.receiverStmt?, hdecl, Bind.bind, Except.bind, hfind, hstmt,
    htarget]
  rfl

/-- The scene finds the parameters that are recorded. -/
theorem Drafted.parameterLocals_eq (h : Drafted G d) (hdecl : d.scene.method m = .ok decl)
    (hbody : decl.hasBody = true) :
    ∃ formals, d.parameters[m]? = some formals ∧ formals.size = decl.params.length ∧
      d.scene.parameterLocals m = .ok (formals.map some) := by
  have hs := h.ordered.wellFormed
  have hget := Ref.fetch_eq_ok_iff.1 hdecl
  have hstmts := (hs.refs.methods decl (Array.mem_of_getElem? hget)).stmts
  obtain ⟨formals, hformals, hsize, hbinds, -⟩ :=
    (h.sound.1 d.scene (.refl _)).exists_record hget hbody
  refine ⟨formals, hformals, hsize, ?_⟩
  have hfold := hs.foldlM_bindParameters (.replicate decl.params.length none) hstmts
    fun b hb k hk => by
      rw [hbinds] at hb
      simpa [hsize] using lt_of_mem_recorded hb k hk
  simp only [Scene.parameterLocals, hdecl, Bind.bind, Except.bind, hfold, hbinds, foldl_recorded hsize]

/-- The scene of a draft is well-formed, and what the draft has recorded is what the statements of the
methods bind: the receiver of each instance method with a body, and all parameters of each method with
a body. So no analysis of the scene, with whatever settings, misses the binding of a receiver. -/
theorem Drafted.records_agree (h : Drafted G d) :
    d.scene.WellFormed ∧
    (∀ m decl, d.scene.method m = .ok decl → decl.hasBody = true →
      (decl.isStatic = false →
        ∃ v, d.receivers[m]? = some v ∧ d.scene.receiverLocal? m = .ok (some v)) ∧
      ∃ formals, d.parameters[m]? = some formals ∧ formals.size = decl.params.length ∧
        d.scene.parameterLocals m = .ok (formals.map some)) ∧
    ∀ settings fuel m s, Problem.analyze ⟨d.scene, settings⟩ fuel ≠
      .error (.error (.missingReceiverBinding m)) s := by
  refine ⟨h.ordered.wellFormed, fun m decl hdecl hbody =>
    ⟨h.receiverLocal?_eq hdecl hbody, h.parameterLocals_eq hdecl hbody⟩,
    fun settings fuel m s hrun => ?_⟩
  rcases Problem.fails_of_analyze hrun with hstops | ⟨⟨⟩, -⟩
  refine hstops.fails.1.receiver m rfl fun n decl hdecl hstatic hbody hnone => ?_
  obtain ⟨v, -, hv⟩ := h.receiverLocal?_eq hdecl hbody hstatic
  cases hnone.symm.trans hv

/-- A method with a parameter of the same name as its receiver keeps both in one local. -/
theorem Drafted.records_agree_namesake : ∃ G d, Drafted G d ∧ d.scene.WellFormed ∧
    d.scene.receiverLocal? ⟨1⟩ = .ok (some ⟨0⟩) ∧
    d.scene.parameterLocals ⟨1⟩ = .ok #[some ⟨0⟩, some ⟨3⟩] ∧
    ∀ fuel m s, Problem.analyze ⟨d.scene, {}⟩ fuel ≠
      .error (.error (.missingReceiverBinding m)) s := by
  obtain ⟨r₁, d₁, h₁, hd⟩ := exists_of_endsWith (r := (Step.file "a").run {})
    (q := fun r₁ d₁ => r₁ == some 0 &&
      endsWith ((Step.classDecl ⟨0⟩ "C" none).run d₁) fun r₂ d₂ => r₂ == some 1 &&
        endsWith ((Step.method ⟨1⟩ "run" [(Name.receiver, .void), ("x", .void)] .void).run d₂)
          fun _ d => decide (d.receivers[(⟨1⟩ : MethodId)]? = some ⟨0⟩ ∧
            d.parameters[(⟨1⟩ : MethodId)]? = some #[⟨0⟩, ⟨3⟩] ∧
            d.scene.methods[1]?.map (fun m => (m.hasBody, m.isStatic)) = some (true, false)))
    (by decide +kernel)
  simp only [Bool.and_eq_true, beq_iff_eq] at hd
  obtain ⟨rfl, hd⟩ := hd
  obtain ⟨r₂, d₂, h₂, hd⟩ := exists_of_endsWith hd
  simp only [Bool.and_eq_true, beq_iff_eq] at hd
  obtain ⟨rfl, hd⟩ := hd
  obtain ⟨r₃, d, h₃, hd⟩ := exists_of_endsWith hd
  obtain ⟨hreceiver, hparameters, hmethod⟩ := of_decide_eq_true hd
  have hdrafted := Drafted.start.step (.file "a") trivial h₁
    |>.step (.classDecl ⟨0⟩ "C" none) (.inr ⟨rfl, rfl⟩) h₂
    |>.step (.method ⟨1⟩ "run" [(Name.receiver, .void), ("x", .void)] .void) (.inr ⟨rfl, rfl⟩) h₃
  obtain ⟨hs, hagree, hanalyze⟩ := hdrafted.records_agree
  obtain ⟨decl, hdecl, hshape⟩ := Option.map_eq_some_iff.1 hmethod
  obtain ⟨hbody, hstatic⟩ := Prod.mk.inj hshape
  obtain ⟨hself, formals, hformals, -, hlocals⟩ :=
    hagree ⟨1⟩ decl (Ref.fetch_eq_ok_iff.2 hdecl) hbody
  obtain ⟨v, hv, hlocal⟩ := hself hstatic
  cases hreceiver.symm.trans hv
  cases hparameters.symm.trans hformals
  exact ⟨_, d, hdrafted, hs, hlocal, by simpa using hlocals, hanalyze {}⟩

end Draft

end PointsTo
