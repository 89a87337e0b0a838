import PointsTo.Proofs.Json.Reading
import PointsTo.Proofs.Scene.Index
import PointsTo.Proofs.Scene.Refs

/-! A stored scene is read back as it was. -/
namespace PointsTo

open Json (record string position positions orNull ofNames tagged)
open Json.Decoder

theorem Signature.reads (s : Signature) : Reads Signature.decode Signature.toJson s := by
  intro levels hlevels
  obtain ⟨n, rfl, -⟩ := Json.depth_record_le.1 hlevels
  rw [Signature.decode, Signature.toJson, fields_record (by rfl) (by decide)]
  rfl

theorem Constant.reads (c : Constant) : Reads Constant.decode Constant.toJson c := by
  intro levels hlevels
  cases c with
  | null => rfl
  | undefined => rfl
  | _ =>
    obtain ⟨n, rfl, -⟩ := Json.depth_record_le.1 hlevels
    rfl

theorem Ty.toJsons_eq_map (ts : List Ty) : toJsons ts = ts.map toJson := by
  induction ts with
  | nil => rfl
  | cons t ts ih => rw [toJsons, ih, List.map_cons]

-- The decoder is recursive in the levels, so the induction is on them and not on the type.
theorem Ty.reads (t : Ty) : Reads Ty.decode Ty.toJson t := by
  intro levels hlevels
  induction levels using Nat.strongRecOn generalizing t with
  | _ levels ih =>
    cases t with
    | unknown => cases levels <;> simp [decode, toJson]
    | any => cases levels <;> simp [decode, toJson]
    | void => cases levels <;> simp [decode, toJson]
    | primitive name =>
      obtain ⟨n, rfl, -⟩ := Json.depth_tagged_le.1 hlevels
      simp [decode, toJson]
    | object owner =>
      obtain ⟨n, rfl, -⟩ := Json.depth_tagged_le.1 hlevels
      simp [decode, toJson]
    | array element =>
      obtain ⟨n, rfl, hn⟩ := Json.depth_tagged_le.1 hlevels
      simp [decode, toJson, ih n (by omega) element hn]
    | function target =>
      obtain ⟨n, rfl, hn⟩ := Json.depth_tagged_le.1 hlevels
      simp [decode, toJson, target.reads n hn]
    | union alternatives =>
      obtain ⟨m, rfl, hm⟩ := Json.depth_tagged_le.1 hlevels
      obtain ⟨n, rfl, hn⟩ := Json.depth_arr_le.1 hm
      rw [toJsons_eq_map, List.forall_mem_map] at hn
      have hitems : (alternatives.map toJson).mapM (decode n) = some alternatives :=
        mapM_write fun t ht => ih n (by omega) t (hn t ht)
      have hlist : list (fun _ json => some json) (n + 1) (.arr (alternatives.map toJson)) =
          some (alternatives.map toJson) := (List.mapM_pure (f := id)).trans (by simp)
      simp [decode, toJson, toJsons_eq_map, hlist, hitems]

/-- The fields of a record that an alternative holds are two levels down. -/
theorem depth_tagged_record {name : String} {l : List (String × Json)} {levels : Nat}
    (h : (tagged name (record l)).depth ≤ levels) :
    ∃ n, levels = n + 1 + 1 ∧ ∀ f ∈ l, f.2.depth ≤ n := by
  obtain ⟨m, rfl, hm⟩ := Json.depth_tagged_le.1 h
  obtain ⟨n, rfl, hn⟩ := Json.depth_record_le.1 hm
  exact ⟨n, rfl, hn⟩

/-- Positions are stored in 32 bits. -/
def Ref.Short (t : Table) (r : Ref t) : Prop := r.index < 1 <<< 32

instance {t : Table} (r : Ref t) : Decidable (r.Short t) := inferInstanceAs (Decidable (_ < _))

/-- Whether a scene can be stored: its positions have 32 bits, and the numbers of parameters 64. -/
structure Scene.Short (s : Scene) : Prop where
  refs : s.Refs Ref.Short
  parameters : ∀ index type, .parameter index type ∈ s.values → index < 1 <<< 64

theorem ref_position {t : Table} {r : Ref t} (h : r.Short t) (levels : Nat) :
    ref levels (position r) = some r := reads_ref h levels (Nat.zero_le _)

theorem list_positions {t : Table} {rs : List (Ref t)} (h : ∀ r ∈ rs, r.Short t) {levels : Nat}
    (hlevels : (positions rs).depth ≤ levels) : list ref levels (positions rs) = some rs :=
  Reads.list (fun r hr => reads_ref (h r hr)) levels hlevels

theorem Value.reads {v : Value} (h : v.Refs Ref.Short)
    (hparameter : ∀ index type, v = .parameter index type → index < 1 <<< 64) :
    Reads Value.decode Value.toJson v := by
  obtain ⟨h, hmethod⟩ := h
  intro levels hlevels
  cases v with
  | constant c =>
    obtain ⟨n, rfl, hn⟩ := Json.depth_tagged_le.1 hlevels
    change (Constant.decode n c.toJson).map Value.constant = _
    rw [c.reads n hn]
    rfl
  | var name type =>
    obtain ⟨n, rfl, hn⟩ := depth_tagged_record hlevels
    change (Ty.decode n type.toJson).bind (fun t => some (Value.var name t)) = _
    rw [type.reads n (hn _ (.tail _ (.head _)))]
    rfl
  | parameter index type =>
    obtain ⟨n, rfl, hn⟩ := depth_tagged_record hlevels
    change (natBelow (1 <<< 64) n (.nat index)).bind (fun i =>
      (Ty.decode n type.toJson).bind fun t => some (Value.parameter i t)) = _
    rw [type.reads n (hn _ (.tail _ (.head _))), natBelow, if_pos (hparameter index type rfl)]
    rfl
  | self owner =>
    obtain ⟨n, rfl, -⟩ := depth_tagged_record hlevels
    rfl
  | field base target =>
    obtain ⟨n, rfl, hn⟩ := depth_tagged_record hlevels
    change (ref n (position base)).bind (fun b =>
      (Signature.decode n target.toJson).bind fun t => some (Value.field b t)) = _
    rw [ref_position (h base (.head _)), target.reads n (hn _ (.tail _ (.head _)))]
    rfl
  | staticField target =>
    obtain ⟨n, rfl, hn⟩ := depth_tagged_record hlevels
    change (Signature.decode n target.toJson).bind (fun t => some (Value.staticField t)) = _
    rw [target.reads n (hn _ (.head _))]
    rfl
  | element base index =>
    obtain ⟨n, rfl, -⟩ := depth_tagged_record hlevels
    change (ref n (position base)).bind (fun b =>
      (ref n (position index)).bind fun i => some (Value.element b i)) = _
    rw [ref_position (h base (.head _)), ref_position (h index (.tail _ (.head _)))]
    rfl
  | new owner =>
    obtain ⟨n, rfl, -⟩ := depth_tagged_record hlevels
    rfl
  | newArray type =>
    obtain ⟨n, rfl, hn⟩ := depth_tagged_record hlevels
    change (Ty.decode n type.toJson).bind (fun t => some (Value.newArray t)) = _
    rw [type.reads n (hn _ (.head _))]
    rfl
  | functionRef target =>
    obtain ⟨n, rfl, -⟩ := depth_tagged_record hlevels
    change (ref n (position target)).bind (fun t => some (Value.functionRef t)) = _
    rw [ref_position (hmethod target rfl)]
    rfl
  | instanceCall base target args =>
    obtain ⟨n, rfl, hn⟩ := depth_tagged_record hlevels
    have hargs := list_positions (fun w hw => h w (.tail _ hw)) (hn _ (.tail _ (.tail _ (.head _))))
    change (ref n (position base)).bind (fun b => (Signature.decode n target.toJson).bind fun t =>
      (list ref n (positions args)).bind fun as => some (Value.instanceCall b t as)) = _
    rw [ref_position (h base (.head _)), target.reads n (hn _ (.tail _ (.head _))), hargs]
    rfl
  | staticCall target args =>
    obtain ⟨n, rfl, hn⟩ := depth_tagged_record hlevels
    have hargs : list ref n (positions args) = some args :=
      list_positions h (hn _ (.tail _ (.head _)))
    change (Signature.decode n target.toJson).bind (fun t =>
      (list ref n (positions args)).bind fun as => some (Value.staticCall t as)) = _
    rw [target.reads n (hn _ (.head _)), hargs]
    rfl
  | pointerCall pointer args =>
    obtain ⟨n, rfl, hn⟩ := depth_tagged_record hlevels
    have hargs := list_positions (fun w hw => h w (.tail _ hw)) (hn _ (.tail _ (.head _)))
    change (ref n (position pointer)).bind (fun q =>
      (list ref n (positions args)).bind fun as => some (Value.pointerCall q as)) = _
    rw [ref_position (h pointer (.head _)), hargs]
    rfl
  | expr operands =>
    obtain ⟨n, rfl, hn⟩ := depth_tagged_record hlevels
    have hargs : list ref n (positions operands) = some operands :=
      list_positions h (hn _ (.head _))
    change (list ref n (positions operands)).bind (fun vs => some (Value.expr vs)) = _
    rw [hargs]
    rfl

theorem StmtKind.reads {k : StmtKind} (h : ∀ v ∈ k.operands, v.Short .value) :
    Reads StmtKind.decode StmtKind.toJson k := by
  intro levels hlevels
  cases k with
  | assign target source =>
    obtain ⟨n, rfl, -⟩ := depth_tagged_record hlevels
    change (ref n (position target)).bind (fun t =>
      (ref n (position source)).bind fun u => some (StmtKind.assign t u)) = _
    rw [ref_position (h target (.head _)), ref_position (h source (.tail _ (.head _)))]
    rfl
  | call operand =>
    obtain ⟨n, rfl, -⟩ := depth_tagged_record hlevels
    change (ref n (position operand)).bind (fun v => some (StmtKind.call v)) = _
    rw [ref_position (h operand (.head _))]
    rfl
  | ret operand =>
    obtain ⟨n, rfl, -⟩ := depth_tagged_record hlevels
    change (ref n (position operand)).bind (fun v => some (StmtKind.ret v)) = _
    rw [ref_position (h operand (.head _))]
    rfl
  | retVoid => rfl
  | nop => rfl

theorem Stmt.reads {s : Stmt} (h : s.Refs Ref.Short) : Reads Stmt.decode Stmt.toJson s := by
  intro levels hlevels
  obtain ⟨n, rfl, hn⟩ := Json.depth_record_le.1 hlevels
  have hmethod := ref_position h.method n
  have hkind := StmtKind.reads h.operands n (hn _ (.tail _ (.head _)))
  simp [decode, toJson, fields_record, hmethod, hkind]

theorem Body.reads {b : Body} (h : b.Refs Ref.Short) : Reads Body.decode Body.toJson b := by
  intro levels hlevels
  obtain ⟨n, rfl, hn⟩ := Json.depth_record_le.1 hlevels
  have hlocals := Reads.names (fun v hv => reads_ref (h.locals v hv)) n (hn _ (.head _))
  have hstmts := list_positions h.stmts (hn _ (.tail _ (.head _)))
  simp [decode, toJson, fields_record, hlocals, hstmts]

theorem MethodDecl.reads {m : MethodDecl} (h : m.Refs Ref.Short) :
    Reads MethodDecl.decode MethodDecl.toJson m := by
  intro levels hlevels
  obtain ⟨n, rfl, hn⟩ := Json.depth_record_le.1 hlevels
  simp only [List.forall_mem_cons] at hn
  obtain ⟨-, -, -, hsignature, -, -, hparams, hreturn, hbody, houter, -⟩ := hn
  have hid := ref_position h.id n
  have howner := ref_position h.owner n
  have hsignature := m.signature.reads n hsignature
  have hparams := Reads.list (fun t _ => t.reads) n hparams
  have hreturn := m.returnType.reads n hreturn
  have hbody := Reads.orNull (fun b hb => ⟨Body.reads (h.body b hb), nofun⟩) n hbody
  have houter := Reads.orNull (fun o ho => ⟨reads_ref (h.outer o ho), nofun⟩) n houter
  simp [decode, toJson, fields_record, hid, howner, hsignature, hparams, hreturn, hbody, houter]

theorem ClassDecl.reads {c : ClassDecl} (h : c.Refs Ref.Short) :
    Reads ClassDecl.decode ClassDecl.toJson c := by
  intro levels hlevels
  obtain ⟨n, rfl, hn⟩ := Json.depth_record_le.1 hlevels
  simp only [List.forall_mem_cons] at hn
  obtain ⟨-, -, hsuper, -, hspace, -, hmethods, -⟩ := hn
  have hid := ref_position h.id n
  have hfile := ref_position h.file n
  have hsuper := Reads.orNull (fun s _ => ⟨reads_text s, nofun⟩) n hsuper
  have hspace := Reads.orNull (fun s _ => ⟨reads_text s, nofun⟩) n hspace
  have hmethods := Reads.names (fun m hm => reads_ref (h.methods m hm)) n hmethods
  simp [decode, toJson, fields_record, hid, hfile, hsuper, hspace, hmethods]

theorem Import.reads (i : Import) : Reads Import.decode Import.toJson i := by
  intro levels hlevels
  obtain ⟨n, rfl, -⟩ := Json.depth_record_le.1 hlevels
  simp [decode, toJson, fields_record]

theorem SourceFile.reads {f : SourceFile} (h : f.Refs Ref.Short) :
    Reads SourceFile.decode SourceFile.toJson f := by
  intro levels hlevels
  obtain ⟨n, rfl, hn⟩ := Json.depth_record_le.1 hlevels
  simp only [List.forall_mem_cons] at hn
  obtain ⟨-, -, -, -, hexports, himports, -⟩ := hn
  have hid := ref_position h.id n
  have hclass := ref_position h.moduleClass n
  have hmethod := ref_position h.moduleMethod n
  have hexports := Reads.names (fun v hv => reads_ref (h.exports v hv)) n hexports
  have himports := Reads.names (fun i _ => i.reads) n himports
  simp [decode, toJson, fields_record, hid, hclass, hmethod, hexports, himports]

/-! Everything that is written can be read as JSON again. -/

theorem Signature.plain_toJson (s : Signature) : s.toJson.Plain :=
  Json.plain_record (by simp)

theorem Ty.plain_toJson : (t : Ty) → t.toJson.Plain
  | .unknown | .any | .void => .str _
  | .primitive _ | .object _ => Json.plain_tagged (.str _)
  | .array element => Json.plain_tagged element.plain_toJson
  | .function target => Json.plain_tagged target.plain_toJson
  | .union alternatives => by
    rw [toJson, toJsons_eq_map]
    refine Json.plain_tagged (.arr ?_)
    rw [List.forall_mem_map]
    exact fun t ht => t.plain_toJson

theorem Constant.plain_toJson (c : Constant) : c.toJson.Plain := by
  cases c with
  | null | undefined => exact .str _
  | bool b => exact Json.plain_tagged (.bool b)
  | str s | number s => exact Json.plain_tagged (.str s)

theorem Value.plain_toJson (v : Value) : v.toJson.Plain := by
  cases v with
  | constant c => exact Json.plain_tagged c.plain_toJson
  | parameter index type =>
    exact Json.plain_tagged (Json.plain_record (by simp [Json.Plain.nat, type.plain_toJson]))
  | _ =>
    exact Json.plain_tagged (Json.plain_record (by simp [Ty.plain_toJson, Signature.plain_toJson]))

theorem Stmt.plain_toJson (s : Stmt) : s.toJson.Plain := by
  have hkind : s.kind.toJson.Plain := by
    cases s.kind with
    | retVoid | nop => exact .str _
    | _ => exact Json.plain_tagged (Json.plain_record (by simp))
  exact Json.plain_record (by simp [hkind])

theorem Body.plain_toJson (b : Body) : b.toJson.Plain :=
  Json.plain_record (by simp [Json.plain_ofNames])

theorem MethodDecl.plain_toJson (m : MethodDecl) : m.toJson.Plain :=
  Json.plain_record (by
    simp [Json.Plain.bool, Json.plain_map, Json.plain_orNull, Signature.plain_toJson,
      Ty.plain_toJson, Body.plain_toJson])

theorem ClassDecl.plain_toJson (c : ClassDecl) : c.toJson.Plain :=
  Json.plain_record (by simp [Json.Plain.bool, Json.plain_orNull, Json.plain_ofNames])

theorem SourceFile.plain_toJson (f : SourceFile) : f.toJson.Plain := by
  have himport : ∀ i : Import, i.toJson.Plain := fun i => Json.plain_record (by simp)
  exact Json.plain_record (by simp [Json.plain_ofNames, himport])

namespace Scene

theorem reads {s : Scene} (h : s.Short) : Reads Scene.decode Scene.toJson s := by
  intro levels hlevels
  obtain ⟨n, rfl, hn⟩ := Json.depth_record_le.1 hlevels
  simp only [List.forall_mem_cons] at hn
  obtain ⟨hfiles, hclasses, hmethods, hstmts, hvalues, -⟩ := hn
  have hfiles :=
    Reads.list (fun f hf => SourceFile.reads (h.refs.files f (Array.mem_toList_iff.1 hf))) n hfiles
  have hclasses :=
    Reads.list (fun c hc => ClassDecl.reads (h.refs.classes c (Array.mem_toList_iff.1 hc))) n hclasses
  have hmethods :=
    Reads.list (fun m hm => MethodDecl.reads (h.refs.methods m (Array.mem_toList_iff.1 hm))) n hmethods
  have hstmts :=
    Reads.list (fun i hi => Stmt.reads (h.refs.stmts i (Array.mem_toList_iff.1 hi))) n hstmts
  have hvalues := Reads.list (fun v hv => Value.reads (h.refs.values v (Array.mem_toList_iff.1 hv))
    fun index type heq => h.parameters index type (by simpa [heq] using hv)) n hvalues
  simp [decode, toJson, fields_record, hfiles, hclasses, hmethods, hstmts, hvalues]

theorem plain_toJson (s : Scene) : s.toJson.Plain :=
  Json.plain_record (by
    simp [Json.plain_map, SourceFile.plain_toJson, ClassDecl.plain_toJson, MethodDecl.plain_toJson,
      Stmt.plain_toJson, Value.plain_toJson])

theorem parse?_render {s : Scene} (h : s.Short) (hdepth : s.toJson.depth ≤ maxNesting) :
    parse? s.render = some s := by
  rw [parse?, render, Json.parse?_pretty s.plain_toJson, Option.bind_some, ofJson?]
  exact reads h maxNesting hdepth

/-- A scene of at most 127 levels is stored and read back as it was, and what is looked up in it is
what one pass over its declarations puts into the tables. -/
theorem stores_faithfully (s : Scene) (h : s.Short) (hdepth : s.toJson.depth ≤ 127) :
    ∃ t, parse? s.render = some t ∧ t = s ∧ t.render = s.render ∧
      (∀ name, t.classNamed? name = s.classTable[name]?) ∧
      (∀ signature, t.methodOf? signature = s.methodTable[signature]?) ∧
      ∀ c, t.children c = (s.subclassTable[c]?).getD [] := by
  refine ⟨s, parse?_render h hdepth, rfl, rfl, fun name => ?_, fun signature => ?_, fun c => ?_⟩
  · rw [getElem?_classTable]
  · rw [getElem?_methodTable]
  · rw [getElem?_subclassTable]

/-- The second class of a name takes the place of the first, and one of them is its own
superclass. -/
private def renamed : Scene where
  files := #[⟨⟨0⟩, "a\t\"b\".ets", ⟨0⟩, ⟨0⟩, NameMap.ofList [("y", ⟨0⟩), ("x", ⟨1⟩)],
    NameMap.ofList [("z", ⟨"\x01", "é"⟩)]⟩]
  classes := #[⟨⟨0⟩, "A", some "A", ⟨0⟩, none, false, NameMap.ofList [("m", ⟨0⟩)]⟩,
    ⟨⟨1⟩, "A", some "B", ⟨0⟩, some "n", true, ∅⟩]
  methods := #[⟨⟨0⟩, "m", ⟨0⟩, ⟨"A", "m"⟩, false, false, [.union [.array .any, .void]], .unknown,
    some ⟨NameMap.ofList [("x", ⟨1⟩)], #[⟨0⟩]⟩, some ⟨0⟩⟩]
  stmts := #[⟨⟨0⟩, .assign ⟨1⟩ ⟨0⟩⟩]
  values := #[.parameter 0 (.function ⟨"A", "m"⟩), .instanceCall ⟨0⟩ ⟨"A", "m"⟩ [⟨0⟩, ⟨1⟩]]

private theorem short_renamed : renamed.Short where
  refs := {
    files := by simp [renamed]; exact ⟨by decide, by decide, by decide, by decide⟩
    classes := by
      simp [renamed]
      exact ⟨⟨by decide, by decide, by decide⟩, by decide, by decide, by decide⟩
    methods := by
      simp [renamed]
      refine ⟨by decide, by decide, ?_, by simp; decide⟩
      rintro b ⟨⟩
      exact ⟨by decide, by decide⟩
    stmts := by simp [renamed]; exact ⟨by decide, by decide⟩
    values := by
      simp [renamed]
      exact ⟨⟨by decide, nofun⟩, by decide, nofun⟩ }
  parameters := by
    simp [renamed]

theorem stores_faithfully_renamed : ∃ t, parse? renamed.render = some t ∧
    t.classNamed? "A" = some ⟨1⟩ ∧ t.children ⟨1⟩ = [⟨0⟩] := by
  obtain ⟨t, hparse, -, -, hclass, -, hchildren⟩ :=
    stores_faithfully renamed short_renamed (by decide)
  refine ⟨t, hparse, ?_, ?_⟩
  · rw [hclass]
    decide
  · rw [hchildren]
    decide

end Scene

end PointsTo
