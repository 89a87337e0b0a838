import Mathlib.Data.Finset.Card
import Mathlib.Data.Finset.Range
import Mathlib.Logic.Relation
import PointsTo.Proofs.Lookup
import PointsTo.Proofs.Scene.Refs
import PointsTo.Scene.Files
import PointsTo.Scene.Place
import PointsTo.Scene.Text

/-! Scenes whose positions all exist. Every question to such a scene has an answer, and the positions
in the answer exist. -/
namespace PointsTo

section Answers

variable {α β : Type} {x : Except Fault α} {f : α → Except Fault β} {Q : α → Prop} {R : β → Prop}

/-- The question has an answer, and `Q` holds of it. -/
def Answers (x : Except Fault α) (Q : α → Prop) : Prop := ∃ a, x = .ok a ∧ Q a

namespace Answers

variable {l : List α}

theorem mono {Q' : α → Prop} (h : Answers x Q) (hQ : ∀ a, Q a → Q' a) : Answers x Q' := by
  obtain ⟨a, ha, hq⟩ := h
  exact ⟨a, ha, hQ a hq⟩

theorem pure {a : α} (h : Q a) : Answers (Pure.pure a) Q := ⟨a, rfl, h⟩

theorem bind (h : Answers x Q) (hf : ∀ a, Q a → Answers (f a) R) : Answers (x >>= f) R := by
  obtain ⟨a, rfl, ha⟩ := h
  exact hf a ha

theorem forM {f : α → Except Fault PUnit} (h : ∀ a ∈ l, Answers (f a) fun _ => True) :
    Answers (l.forM f) fun _ => True := by
  induction l with
  | nil => exact pure trivial
  | cons a l ih => exact bind (h a (.head _)) fun _ _ => ih fun b hb => h b (.tail _ hb)

theorem filterM {f : α → Except Fault Bool} (hQ : ∀ a ∈ l, Q a)
    (h : ∀ a ∈ l, Answers (f a) fun _ => True) : Answers (l.filterM f) fun l' => ∀ a ∈ l', Q a := by
  have haux : ∀ l acc : List α, (∀ a ∈ l, Q a ∧ Answers (f a) fun _ => True) → (∀ a ∈ acc, Q a) →
      Answers (l.filterAuxM f acc) fun l' => ∀ a ∈ l', Q a := by
    intro l
    induction l with
    | nil => exact fun acc _ hacc => pure hacc
    | cons a l ih =>
      intro acc hl hacc
      refine bind (hl a (.head _)).2 fun b _ => ih _ (fun c hc => hl c (.tail _ hc)) ?_
      cases b with
      | false => exact hacc
      | true => exact List.forall_mem_cons.2 ⟨(hl a (.head _)).1, hacc⟩
  refine bind (haux l [] (fun a ha => ⟨hQ a ha, h a ha⟩) (by simp)) fun found hfound => pure ?_
  simpa using hfound

theorem mapM (h : ∀ a ∈ l, Answers (f a) fun _ => True) : Answers (l.mapM f) fun _ => True := by
  induction l with
  | nil => exact pure trivial
  | cons a l ih =>
    rw [List.mapM_cons]
    refine bind (h a (.head _)) fun _ _ => ?_
    exact bind (ih fun b hb => h b (.tail _ hb)) fun _ _ => pure trivial

theorem findM? {f : α → Except Fault Bool} (h : ∀ a ∈ l, Answers (f a) fun _ => True) :
    Answers (l.findM? f) fun a? => ∀ a ∈ a?, a ∈ l := by
  induction l with
  | nil => exact pure (by simp)
  | cons a l ih =>
    refine bind (h a (.head _)) fun b _ => ?_
    cases b with
    | true => exact pure (by simp)
    | false =>
      exact (ih fun c hc => h c (.tail _ hc)).mono fun a? ha? c hc => .tail _ (ha? c hc)

theorem foldlM {γ : Type} {f : γ → α → Except Fault γ} {I : γ → Prop} {b : γ} (hb : I b)
    (h : ∀ a ∈ l, ∀ b, I b → Answers (f b a) I) : Answers (l.foldlM f b) I := by
  induction l generalizing b with
  | nil => exact pure hb
  | cons a l ih =>
    rw [List.foldlM_cons]
    exact bind (h a (.head _) b hb) fun b' hb' => ih hb' fun c hc => h c (.tail _ hc)

end Answers

theorem answers_fetch {t : Table} {r : Ref t} {xs : Array α} (h : r.index < xs.size) :
    Answers (r.fetch xs) (· ∈ xs) :=
  ⟨xs[r.index], Ref.fetch_eq_ok_iff.2 (Array.getElem?_eq_getElem h), Array.getElem_mem h⟩

end Answers

namespace Scene

/-- How many entries each table of a scene has. -/
def count (s : Scene) : Table → Nat
  | .file => s.files.size
  | .classDecl => s.classes.size
  | .method => s.methods.size
  | .stmt => s.stmts.size
  | .value => s.values.size
  | .site | .context | .item | .node | .edge => 0

/-- Whether a table of the scene has a position. -/
def Has (s : Scene) : Positions := fun t r => r.index < s.count t

/-- Whether the scene has a position, if it is one of its own tables. -/
def Knows (s : Scene) : Positions
  | .site, _ | .context, _ | .item, _ | .node, _ | .edge, _ => True
  | t, r => s.Has t r

/-- `w` is a direct part of `v`. -/
def Operand (s : Scene) (v w : ValueId) : Prop := ∃ a, s.value v = .ok a ∧ w ∈ a.operands

/-- Every position that is stored exists and an own position is the right one, no value is built
from itself, and every parameter that a method binds is one of its own. -/
structure WellFormed (s : Scene) : Prop where
  files : ∀ (i : Nat) (f : SourceFile), s.files[i]? = some f → f.id = ⟨i⟩
  classes : ∀ (i : Nat) (c : ClassDecl), s.classes[i]? = some c → c.id = ⟨i⟩
  methods : ∀ (i : Nat) (m : MethodDecl), s.methods[i]? = some m → m.id = ⟨i⟩
  refs : s.Refs s.Has
  acyclic : ∀ v, ¬ Relation.TransGen s.Operand v v
  parameters : ∀ m ∈ s.methods, ∀ i ∈ m.stmts, ∀ stmt, s.stmt i = .ok stmt →
    ∀ target source, stmt.kind = .assign target source →
    ∀ index type, s.value source = .ok (.parameter index type) → index < m.params.length

/-- Every instance method with a body binds its receiver. -/
def BindsReceivers (s : Scene) : Prop :=
  ∀ m decl, s.method m = .ok decl → decl.isStatic = false → decl.hasBody = true →
    s.receiverLocal? m ≠ .ok none

/-- An analysis of the scene can fail in this way. -/
structure Admits (s : Scene) (e : Failure) : Prop where
  fault : ∀ f, e = .fault f → ¬ s.WellFormed
  receiver : ∀ m, e = .error (.missingReceiverBinding m) → ¬ s.BindsReceivers

theorem Admits.of_fault {s : Scene} {f : Fault} (h : ¬ s.WellFormed) : s.Admits (.fault f) :=
  ⟨fun _ _ => h, nofun⟩

/-- A position exists: in a table of an analysis, which has the given number of entries, or else in
the scene, as long as that is well-formed. -/
def Within (s : Scene) (n : Table → Nat) : Positions
  | .site, r => r.index < n .site
  | .context, r => r.index < n .context
  | .item, r => r.index < n .item
  | .node, r => r.index < n .node
  | .edge, r => r.index < n .edge
  | t, r => s.WellFormed → s.Has t r

/-- A position exists, as long as the scene is well-formed. -/
abbrev Sure (s : Scene) {t : Table} (r : Ref t) : Prop := s.WellFormed → s.Has t r

theorem Within.mono {s : Scene} {n n' : Table → Nat} (hn : ∀ t, n t ≤ n' t) {t : Table} {r : Ref t}
    (h : s.Within n t r) : s.Within n' t r := by
  cases t with
  | site | context | item | node | edge => exact Nat.lt_of_lt_of_le h (hn _)
  | file | classDecl | method | stmt | value => exact h

theorem WellFormed.knows {s : Scene} (hs : s.WellFormed) {n : Table → Nat} {t : Table} {r : Ref t}
    (h : s.Within n t r) : s.Knows t r := by
  cases t with
  | site | context | item | node | edge => trivial
  | file | classDecl | method | stmt | value => exact h hs

end Scene

section Parts

variable {α : Type} {P : Positions} {i : Stmt}

theorem mem_of_lookup {κ : Type} [BEq κ] [LawfulBEq κ] {l : List (κ × α)} {k : κ} {a : α}
    (h : l.lookup k = some a) : (k, a) ∈ l := by
  obtain ⟨before, after, rfl, -⟩ := List.lookup_eq_some_iff.1 h
  simp

theorem NameMap.mem_values {m : NameMap α} {name : String} {a : α} (h : m.get? name = some a) :
    a ∈ m.values :=
  List.mem_map_of_mem (mem_of_lookup h)

theorem MethodDecl.Refs.stmts {m : MethodDecl} (h : m.Refs P) : ∀ i ∈ m.stmts, P .stmt i := by
  unfold MethodDecl.stmts
  cases hb : m.body with
  | none => simp
  | some body => exact (h.body body hb).stmts

theorem MethodDecl.Refs.localNamed? {m : MethodDecl} (h : m.Refs P) {name : String} {v : ValueId}
    (hv : m.localNamed? name = some v) : P .value v := by
  obtain ⟨body, hbody, hget⟩ := Option.bind_eq_some_iff.1 hv
  exact (h.body body hbody).locals v (NameMap.mem_values hget)

theorem Stmt.Refs.target? (h : i.Refs P) : ∀ v ∈ i.target?, P .value v := by
  obtain ⟨m, kind⟩ := i
  cases kind with
  | assign target source =>
    rintro _ ⟨⟩
    exact h.operands target (.head _)
  | _ => nofun

theorem Stmt.Refs.source? (h : i.Refs P) : ∀ v ∈ i.source?, P .value v := by
  obtain ⟨m, kind⟩ := i
  cases kind with
  | assign target source =>
    rintro _ ⟨⟩
    exact h.operands source (.tail _ (.head _))
  | _ => nofun

theorem Stmt.Refs.returned? (h : i.Refs P) : ∀ v ∈ i.returned?, P .value v := by
  obtain ⟨m, kind⟩ := i
  cases kind with
  | ret operand =>
    rintro _ ⟨⟩
    exact h.operands operand (.head _)
  | _ => nofun

end Parts

namespace Scene

variable {s : Scene} {m : MethodId} {v : ValueId} {c : ClassId} {i : StmtId} {name : String}

theorem Refs.fileNamed? (h : s.Refs s.Has) {f : FileId} (hf : s.fileNamed? name = some f) :
    s.Has .file f := by
  obtain ⟨d, hd, rfl⟩ := Option.map_eq_some_iff.1 hf
  exact (h.files d (by simpa using List.mem_of_find?_eq_some hd)).id

section Names

variable (h : s.WellFormed)

include h

theorem WellFormed.classNamed? (hc : s.classNamed? name = some c) : s.Has .classDecl c := by
  obtain ⟨d, hd, rfl⟩ := Option.map_eq_some_iff.1 hc
  exact (h.refs.classes d (by simpa using List.mem_of_find?_eq_some hd)).id

theorem WellFormed.methodOf? {signature : Signature} (hm : s.methodOf? signature = some m) :
    s.Has .method m := by
  obtain ⟨d, hd, rfl⟩ := Option.map_eq_some_iff.1 hm
  exact (h.refs.methods d (by simpa using List.mem_of_find?_eq_some hd)).id

theorem WellFormed.methodBySignature? (hm : s.methodBySignature? name = some m) :
    s.Has .method m := by
  obtain ⟨⟨owner, method⟩, -, hm⟩ := Option.bind_eq_some_iff.1 hm
  exact h.methodOf? hm

end Names

namespace WellFormed

/-! Declarations, statements and values. -/

variable (h : s.WellFormed)

include h

theorem file {f : FileId} (hf : s.Has .file f) : Answers (s.file f) (·.Refs s.Has) :=
  (answers_fetch hf).mono fun a ha => h.refs.files a ha

theorem classDecl (hc : s.Has .classDecl c) : Answers (s.classDecl c) (·.Refs s.Has) :=
  (answers_fetch hc).mono fun a ha => h.refs.classes a ha

theorem method (hm : s.Has .method m) : Answers (s.method m) (·.Refs s.Has) :=
  (answers_fetch hm).mono fun a ha => h.refs.methods a ha

theorem stmt (hi : s.Has .stmt i) : Answers (s.stmt i) (·.Refs s.Has) :=
  (answers_fetch hi).mono fun a ha => h.refs.stmts a ha

theorem value (hv : s.Has .value v) : Answers (s.value v) (·.Refs s.Has) :=
  (answers_fetch hv).mono fun a ha => h.refs.values a ha

theorem classOfMethod (hm : s.Has .method m) : Answers (s.classOfMethod m) (·.Refs s.Has) :=
  (h.method hm).bind fun _ hdecl => h.classDecl hdecl.owner

theorem fileOfMethod (hm : s.Has .method m) : Answers (s.fileOfMethod m) (·.Refs s.Has) :=
  (h.classOfMethod hm).bind fun _ hdecl => h.file hdecl.file

theorem methodNamed? (name : String) :
    Answers (s.methodNamed? name) fun m? => ∀ m ∈ m?, s.Has .method m := by
  unfold Scene.methodNamed?
  split
  · next m hm =>
    refine .pure ?_
    rintro _ ⟨⟩
    exact h.methodBySignature? hm
  split
  · next f hf =>
    refine (h.file (h.refs.fileNamed? hf)).bind fun file hfile => .pure ?_
    rintro _ ⟨⟩
    exact hfile.moduleMethod
  split
  · next m hm =>
    refine .pure ?_
    rintro _ ⟨⟩
    have hmem : m ∈ s.methods.toList.filter (·.name == name) := hm ▸ .head _
    exact (h.refs.methods m (by simpa using (List.mem_filter.1 hmem).1)).id
  · exact .pure nofun

theorem globalProperty? (hv : s.Has .value v) : Answers (s.globalProperty? v) fun _ => True := by
  refine (h.value hv).bind fun a ha => ?_
  split
  · next base target =>
    refine (h.value (ha.operands base (.head _))).bind fun b _ => ?_
    split <;> exact .pure trivial
  · exact .pure trivial

theorem isHeapRef (hv : s.Has .value v) : Answers (s.isHeapRef v) fun _ => True := by
  refine (h.value hv).bind fun a _ => ?_
  split
  · exact (h.globalProperty? hv).bind fun _ _ => .pure trivial
  · exact .pure trivial

theorem callExpr? (hi : s.Has .stmt i) :
    Answers (s.callExpr? i) fun v? => ∀ v ∈ v?, s.Has .value v := by
  refine (h.stmt hi).bind fun stmt hstmt => ?_
  obtain ⟨m, kind⟩ := stmt
  have hoperands := hstmt.operands
  cases kind with
  | call expr =>
    refine .pure ?_
    rintro _ ⟨⟩
    exact hoperands expr (.head _)
  | assign target source =>
    have hsource := hoperands source (.tail _ (.head _))
    refine (h.value hsource).bind fun a _ => ?_
    split
    · refine .pure ?_
      rintro _ ⟨⟩
      exact hsource
    · exact .pure nofun
  | _ => exact .pure nofun

theorem bindsReceiver (hi : s.Has .stmt i) : Answers (s.bindsReceiver i) fun _ => True := by
  refine (h.stmt hi).bind fun stmt hstmt => ?_
  split
  · exact .pure trivial
  · next source hsource =>
    refine (h.value (hstmt.source? source hsource)).bind fun a _ => ?_
    split <;> exact .pure trivial

theorem receiverStmt? (hm : s.Has .method m) :
    Answers (s.receiverStmt? m) fun i? => ∀ i ∈ i?, s.Has .stmt i :=
  (h.method hm).bind fun _ hdecl =>
    (Answers.findM? fun i hi => h.bindsReceiver (hdecl.stmts i hi)).mono
      fun _ hi? i hi => hdecl.stmts i (hi? i hi)

theorem receiverLocal? (hm : s.Has .method m) :
    Answers (s.receiverLocal? m) fun v? => ∀ v ∈ v?, s.Has .value v := by
  refine (h.receiverStmt? hm).bind fun i? hi? => ?_
  cases i? with
  | none => exact .pure nofun
  | some i => exact (h.stmt (hi? i rfl)).bind fun stmt hstmt => .pure hstmt.target?

/-- Every parameter that is bound has a slot. -/
theorem parameterLocals (hm : s.Has .method m) :
    Answers (s.parameterLocals m) fun formals => ∀ v, some v ∈ formals.toList → s.Has .value v := by
  obtain ⟨decl, hdecl, hmem⟩ := answers_fetch hm
  have hrefs := h.refs.methods decl hmem
  unfold Scene.parameterLocals
  rw [Scene.method, hdecl]
  let I : Array (Option ValueId) → Prop := fun slots =>
    slots.size = decl.params.length ∧ ∀ v, some v ∈ slots.toList → s.Has .value v
  have hstart : I (Array.replicate decl.params.length none) := by simp [I]
  refine (Answers.foldlM (I := I) hstart fun i hi slots hslots => ?_).mono fun _ hI => hI.2
  obtain ⟨stmt, hstmt, hparts⟩ := h.stmt (hrefs.stmts i hi)
  refine Answers.bind (Q := (stmt = ·)) ⟨stmt, hstmt, rfl⟩ ?_
  rintro _ rfl
  split
  · next target source hkind =>
    have hin := fun v (hv : v ∈ stmt.kind.operands) => hparts.operands v hv
    rw [hkind] at hin
    obtain ⟨a, ha, -⟩ := h.value (hin source (.tail _ (.head _)))
    refine Answers.bind (Q := (a = ·)) ⟨a, ha, rfl⟩ ?_
    rintro _ rfl
    split
    · next index type =>
      have hlt := h.parameters decl hmem i hi stmt hstmt target source hkind index type ha
      rw [Scene.bindParameter, if_pos (hslots.1 ▸ hlt)]
      refine ⟨_, rfl, by simpa using hslots.1, fun v hv => ?_⟩
      rw [Array.toList_setIfInBounds] at hv
      rcases List.mem_or_eq_of_mem_set hv with hv | hv
      · exact hslots.2 v hv
      · cases hv
        exact hin target (.head _)
    · exact .pure hslots
  · exact .pure hslots

theorem returnStmts (hm : s.Has .method m) :
    Answers (s.returnStmts m) fun l => ∀ i ∈ l, s.Has .stmt i :=
  (h.method hm).bind fun _ hdecl => Answers.filterM hdecl.stmts fun i hi =>
    (h.stmt (hdecl.stmts i hi)).bind fun _ _ => .pure trivial

theorem valueType (hv : s.Has .value v) : Answers (s.valueType v) fun _ => True := by
  refine (h.value hv).bind fun a ha => ?_
  cases a with
  | functionRef target => exact (h.method (ha.target target rfl)).bind fun _ _ => .pure trivial
  | _ => exact .pure trivial

theorem place? (hv : s.Has .value v) :
    Answers (s.place? v) fun p? => ∀ base key, p? = some (.part base key) → s.Operand v base := by
  refine (h.globalProperty? hv).bind fun name? _ => ?_
  split
  · exact .pure nofun
  obtain ⟨a, ha, -⟩ := h.value hv
  refine Answers.bind ⟨a, ha, rfl⟩ ?_
  rintro _ rfl
  split
  · next base target =>
    refine .pure ?_
    rintro _ _ ⟨⟩
    exact ⟨_, ha, .head _⟩
  · next base index =>
    refine .pure ?_
    rintro _ _ ⟨⟩
    exact ⟨_, ha, .head _⟩
  · exact .pure nofun
  · exact .pure nofun

theorem has_of_operand {w : ValueId} (hvw : s.Operand v w) : s.Has .value w := by
  obtain ⟨a, ha, hw⟩ := hvw
  have hmem : a ∈ s.values := Array.mem_of_getElem? (Ref.fetch_eq_ok_iff.1 ha)
  exact (h.refs.values a hmem).operands w hw

end WellFormed

section Nesting

open Classical in
/-- How many values a value is built from. -/
noncomputable def nesting (s : Scene) (v : ValueId) : Nat :=
  ((Finset.range s.values.size).filter fun i => Relation.TransGen s.Operand v ⟨i⟩).card

theorem nesting_le (s : Scene) (v : ValueId) : s.nesting v ≤ s.values.size := by
  classical
  unfold nesting
  exact (Finset.card_filter_le _ _).trans_eq (Finset.card_range _)

/-- What a value is built from nests less deeply. -/
theorem WellFormed.nesting_lt (h : s.WellFormed) {w : ValueId} (hvw : s.Operand v w) :
    s.nesting w < s.nesting v := by
  classical
  refine Finset.card_lt_card ⟨fun i hi => ?_, fun hsub => ?_⟩
  · rw [Finset.mem_filter] at hi ⊢
    exact ⟨hi.1, .head hvw hi.2⟩
  · have hw : w.index ∈ (Finset.range s.values.size).filter
        fun i => Relation.TransGen s.Operand v ⟨i⟩ := by
      rw [Finset.mem_filter, Finset.mem_range]
      exact ⟨h.has_of_operand hvw, .single hvw⟩
    exact h.acyclic w (Finset.mem_filter.1 (hsub hw)).2

theorem WellFormed.textWithin (h : s.WellFormed) {fuel : Nat} (hv : s.Has .value v)
    (hfuel : s.nesting v < fuel) : Answers (s.textWithin fuel v) fun _ => True := by
  induction fuel generalizing v with
  | zero => omega
  | succ fuel ih =>
    obtain ⟨a, ha, hrefs⟩ := h.value hv
    have hpart : ∀ w ∈ a.operands, Answers (s.textWithin fuel w) fun _ => True := fun w hw =>
      ih (hrefs.operands w hw) (by have := h.nesting_lt ⟨a, ha, hw⟩; omega)
    unfold Scene.textWithin
    refine Answers.bind ⟨a, ha, rfl⟩ ?_
    rintro _ rfl
    cases a with
    | field base target => exact (hpart base (.head _)).bind fun _ _ => .pure trivial
    | element base index =>
      refine (hpart base (.head _)).bind fun _ _ => ?_
      exact (hpart index (.tail _ (.head _))).bind fun _ _ => .pure trivial
    | functionRef target => exact (h.method (hrefs.target target rfl)).bind fun _ _ => .pure trivial
    | instanceCall base target args =>
      exact (hpart base (.head _)).bind fun _ _ => .pure trivial
    | pointerCall pointer args => exact (hpart pointer (.head _)).bind fun _ _ => .pure trivial
    | _ => exact .pure trivial

theorem WellFormed.text (h : s.WellFormed) (hv : s.Has .value v) :
    Answers (s.text v) fun _ => True :=
  h.textWithin hv (Nat.lt_succ_of_le (s.nesting_le v))

theorem WellFormed.leaveOut (h : s.WellFormed) {explains : Bool} {vs : List ValueId}
    (hvs : ∀ v ∈ vs, s.Has .value v) : Answers (s.leaveOut explains vs) fun _ => True := by
  unfold Scene.leaveOut
  split
  · exact .forM fun v hv => (h.text (hvs v hv)).bind fun _ _ => .pure trivial
  · exact .pure trivial

end Nesting

end Scene

end PointsTo
