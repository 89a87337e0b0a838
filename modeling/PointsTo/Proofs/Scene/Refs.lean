import PointsTo.Scene.Decl

/-! The positions that a scene stores. -/
namespace PointsTo

def StmtKind.operands : StmtKind → List ValueId
  | .assign target source => [target, source]
  | .call operand | .ret operand => [operand]
  | .retVoid | .nop => []

/-- A property of positions in any table. -/
abbrev Positions := (t : Table) → Ref t → Prop

/-! What holds of every position that a declaration stores. -/

variable (P : Positions)

structure Value.Refs (v : Value) : Prop where
  operands : ∀ w ∈ v.operands, P .value w
  target : ∀ m, v = .functionRef m → P .method m

structure Stmt.Refs (s : Stmt) : Prop where
  method : P .method s.method
  operands : ∀ v ∈ s.kind.operands, P .value v

structure Body.Refs (b : Body) : Prop where
  locals : ∀ v ∈ b.locals.values, P .value v
  stmts : ∀ i ∈ b.stmts.toList, P .stmt i

structure MethodDecl.Refs (m : MethodDecl) : Prop where
  id : P .method m.id
  owner : P .classDecl m.owner
  body : ∀ b ∈ m.body, b.Refs P
  outer : ∀ n ∈ m.outer, P .method n

structure ClassDecl.Refs (c : ClassDecl) : Prop where
  id : P .classDecl c.id
  file : P .file c.file
  methods : ∀ m ∈ c.methods.values, P .method m

structure SourceFile.Refs (f : SourceFile) : Prop where
  id : P .file f.id
  moduleClass : P .classDecl f.moduleClass
  moduleMethod : P .method f.moduleMethod
  exports : ∀ v ∈ f.exports.values, P .value v

structure Scene.Refs (s : Scene) : Prop where
  files : ∀ f ∈ s.files, f.Refs P
  classes : ∀ c ∈ s.classes, c.Refs P
  methods : ∀ m ∈ s.methods, m.Refs P
  stmts : ∀ i ∈ s.stmts, i.Refs P
  values : ∀ v ∈ s.values, v.Refs P

end PointsTo
