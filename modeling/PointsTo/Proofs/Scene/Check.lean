import PointsTo.Proofs.Scene.WellFormed

/-! A check that a scene is well-formed, for scenes whose values are built from earlier ones. -/
namespace PointsTo

section Refs

variable {P : Positions} [∀ t r, Decidable (P t r)]

instance (v : Value) : Decidable (v.Refs P) :=
  have : Decidable (∀ m, v = .functionRef m → P .method m) :=
    match v with
    | .functionRef m => decidable_of_iff (P .method m) (by simp)
    | .var .. | .parameter .. | .self .. | .field .. | .staticField .. | .element .. | .new ..
    | .newArray .. | .constant .. | .instanceCall .. | .staticCall .. | .pointerCall ..
    | .expr .. => isTrue nofun
  decidable_of_iff (_ ∧ ∀ m, v = .functionRef m → P .method m)
    ⟨fun ⟨h₁, h₂⟩ => ⟨h₁, h₂⟩, fun ⟨h₁, h₂⟩ => ⟨h₁, h₂⟩⟩

instance (i : Stmt) : Decidable (i.Refs P) :=
  decidable_of_iff (_ ∧ _) ⟨fun ⟨h₁, h₂⟩ => ⟨h₁, h₂⟩, fun ⟨h₁, h₂⟩ => ⟨h₁, h₂⟩⟩

instance (b : Body) : Decidable (b.Refs P) :=
  decidable_of_iff (_ ∧ _) ⟨fun ⟨h₁, h₂⟩ => ⟨h₁, h₂⟩, fun ⟨h₁, h₂⟩ => ⟨h₁, h₂⟩⟩

instance (m : MethodDecl) : Decidable (m.Refs P) :=
  decidable_of_iff (_ ∧ _ ∧ _ ∧ _)
    ⟨fun ⟨h₁, h₂, h₃, h₄⟩ => ⟨h₁, h₂, h₃, h₄⟩, fun ⟨h₁, h₂, h₃, h₄⟩ => ⟨h₁, h₂, h₃, h₄⟩⟩

instance (c : ClassDecl) : Decidable (c.Refs P) :=
  decidable_of_iff (_ ∧ _ ∧ _)
    ⟨fun ⟨h₁, h₂, h₃⟩ => ⟨h₁, h₂, h₃⟩, fun ⟨h₁, h₂, h₃⟩ => ⟨h₁, h₂, h₃⟩⟩

instance (f : SourceFile) : Decidable (f.Refs P) :=
  decidable_of_iff (_ ∧ _ ∧ _ ∧ _)
    ⟨fun ⟨h₁, h₂, h₃, h₄⟩ => ⟨h₁, h₂, h₃, h₄⟩, fun ⟨h₁, h₂, h₃, h₄⟩ => ⟨h₁, h₂, h₃, h₄⟩⟩

instance (s : Scene) : Decidable (s.Refs P) :=
  decidable_of_iff (_ ∧ _ ∧ _ ∧ _ ∧ _)
    ⟨fun ⟨h₁, h₂, h₃, h₄, h₅⟩ => ⟨h₁, h₂, h₃, h₄, h₅⟩,
      fun ⟨h₁, h₂, h₃, h₄, h₅⟩ => ⟨h₁, h₂, h₃, h₄, h₅⟩⟩

end Refs

namespace Scene

variable {s : Scene}

instance (t : Table) (r : Ref t) : Decidable (s.Has t r) := inferInstanceAs (Decidable (_ < _))

/-- The positions of `xs`, as `own` tells them, are the right ones. -/
abbrev Owns {α : Type} {t : Table} (xs : Array α) (own : α → Ref t) : Prop :=
  ∀ x ∈ xs.toList.zipIdx, own x.1 = ⟨x.2⟩

/-- A parameter that a statement of the method binds is one of its own. -/
def bindsOwn (s : Scene) (m : MethodDecl) (i : StmtId) : Bool :=
  match s.stmt i with
  | .ok ⟨_, .assign _ source⟩ =>
    match s.value source with
    | .ok (.parameter index _) => index < m.params.length
    | _ => true
  | _ => true

/-- Well-formed, and every value is built from earlier ones. -/
structure Ordered (s : Scene) : Prop where
  files : Owns s.files (·.id)
  classes : Owns s.classes (·.id)
  methods : Owns s.methods (·.id)
  refs : s.Refs s.Has
  earlier : ∀ x ∈ s.values.toList.zipIdx, ∀ w ∈ x.1.operands, w.index < x.2
  parameters : ∀ m ∈ s.methods, ∀ i ∈ m.stmts, s.bindsOwn m i = true

instance : Decidable s.Ordered :=
  decidable_of_iff (_ ∧ _ ∧ _ ∧ _ ∧ _ ∧ _)
    ⟨fun ⟨h₁, h₂, h₃, h₄, h₅, h₆⟩ => ⟨h₁, h₂, h₃, h₄, h₅, h₆⟩,
      fun ⟨h₁, h₂, h₃, h₄, h₅, h₆⟩ => ⟨h₁, h₂, h₃, h₄, h₅, h₆⟩⟩

theorem Owns.own {α : Type} {t : Table} {xs : Array α} {own : α → Ref t} (h : Owns xs own) {i : Nat}
    {x : α} (hx : xs[i]? = some x) : own x = ⟨i⟩ :=
  h (x, i) (List.mem_zipIdx_iff_getElem?.2 (by simpa using hx))

theorem Ordered.index_lt (h : s.Ordered) {v w : ValueId} (hw : s.Operand v w) :
    w.index < v.index := by
  obtain ⟨a, ha, hmem⟩ := hw
  have hv := Ref.fetch_eq_ok_iff.1 ha
  exact h.earlier (a, v.index) (List.mem_zipIdx_iff_getElem?.2 (by simpa using hv)) w hmem

theorem Ordered.wellFormed (h : s.Ordered) : s.WellFormed where
  files _ _ := h.files.own
  classes _ _ := h.classes.own
  methods _ _ := h.methods.own
  refs := h.refs
  acyclic v hv := by
    have hlt : ∀ w, Relation.TransGen s.Operand v w → w.index < v.index := by
      intro w hw
      induction hw with
      | single hw => exact h.index_lt hw
      | tail _ hw ih => exact (h.index_lt hw).trans ih
    exact Nat.lt_irrefl _ (hlt v hv)
  parameters m hm i hi stmt hstmt target source hkind index type hsource := by
    have hbinds := h.parameters m hm i hi
    obtain ⟨method, kind⟩ := stmt
    cases hkind
    simpa [bindsOwn, hstmt, hsource] using hbinds

end Scene

end PointsTo
