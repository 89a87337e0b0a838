import PointsTo.Outcome
import PointsTo.Scene.NameMap
import PointsTo.Scene.Value

/-! Statements, methods, classes and files, and the scene that holds them. -/
namespace PointsTo

inductive StmtKind where
  | assign (target source : ValueId)
  | call (expr : ValueId)
  | ret (operand : ValueId)
  | retVoid
  | nop
deriving DecidableEq

structure Stmt where
  method : MethodId
  kind : StmtKind

namespace Stmt

def target? (s : Stmt) : Option ValueId :=
  match s.kind with
  | .assign target _ => some target
  | _ => none

def source? (s : Stmt) : Option ValueId :=
  match s.kind with
  | .assign _ source => some source
  | _ => none

def returned? (s : Stmt) : Option ValueId :=
  match s.kind with
  | .ret operand => some operand
  | _ => none

end Stmt

structure Body where
  /-- The locals that the body declares. -/
  locals : NameMap ValueId := ∅
  stmts : Array StmtId := #[]

structure MethodDecl where
  id : MethodId
  name : String
  owner : ClassId
  signature : Signature
  isStatic : Bool
  isAbstract : Bool
  params : List Ty
  returnType : Ty
  body : Option Body
  /-- The method that a closure or nested function stands in. -/
  outer : Option MethodId

namespace MethodDecl

def isConstructor (m : MethodDecl) : Bool := m.name == Name.constructor

def hasBody (m : MethodDecl) : Bool := m.body.isSome

def stmts (m : MethodDecl) : List StmtId :=
  match m.body with
  | some body => body.stmts.toList
  | none => []

def localNamed? (m : MethodDecl) (name : String) : Option ValueId :=
  m.body.bind (·.locals.get? name)

def declares (m : MethodDecl) (v : ValueId) : Bool :=
  match m.body with
  | some body => body.locals.values.contains v
  | none => false

end MethodDecl

structure ClassDecl where
  id : ClassId
  name : String
  superName : Option String
  file : FileId
  space : Option String
  /-- Declared by the platform; its methods have no bodies. -/
  isPlatform : Bool
  methods : NameMap MethodId

structure Import where
  source : String
  name : String
deriving DecidableEq

structure SourceFile where
  id : FileId
  name : String
  moduleClass : ClassId
  moduleMethod : MethodId
  /-- The module-level local behind each exported name. -/
  exports : NameMap ValueId
  /-- Where each imported local comes from. -/
  imports : NameMap Import

/-- The program to be analysed. Its parts refer to each other by position. -/
structure Scene where
  files : Array SourceFile := #[]
  classes : Array ClassDecl := #[]
  methods : Array MethodDecl := #[]
  stmts : Array Stmt := #[]
  values : Array Value := #[]

namespace Scene

def file (s : Scene) (f : FileId) : Except Fault SourceFile := f.fetch s.files

def classDecl (s : Scene) (c : ClassId) : Except Fault ClassDecl := c.fetch s.classes

def method (s : Scene) (m : MethodId) : Except Fault MethodDecl := m.fetch s.methods

def stmt (s : Scene) (i : StmtId) : Except Fault Stmt := i.fetch s.stmts

def value (s : Scene) (v : ValueId) : Except Fault Value := v.fetch s.values

/-- The last class of that name. -/
def classNamed? (s : Scene) (name : String) : Option ClassId :=
  (s.classes.toList.reverse.find? (·.name == name)).map (·.id)

/-- The last method of that signature. -/
def methodOf? (s : Scene) (signature : Signature) : Option MethodId :=
  (s.methods.toList.reverse.find? (·.signature == signature)).map (·.id)

def classOfMethod (s : Scene) (m : MethodId) : Except Fault ClassDecl := do
  s.classDecl (← s.method m).owner

def fileOfMethod (s : Scene) (m : MethodId) : Except Fault SourceFile := do
  s.file (← s.classOfMethod m).file

private def repeated : List String → List String → List Notice
  | _, [] => []
  | seen, name :: rest =>
    if seen.contains name then .duplicateClass name :: repeated seen rest
    else repeated (name :: seen) rest

/-- One notice for every class whose name was taken before. -/
def duplicates (s : Scene) : List Notice := repeated [] (s.classes.toList.map (·.name))

end Scene

end PointsTo
