import PointsTo.Scene.Decl
import Std.Data.TreeMap

/-! Scenes under construction. Instance methods begin by binding their receiver, every method with a
body then binds its parameters, and an object creation is an allocation followed by a call of the
constructor, if there is one. -/
namespace PointsTo

structure Draft where
  scene : Scene := {}
  /-- The file that holds the classes of the platform, once there is one. -/
  platformFile : Option FileId := none
  /-- The local that holds the receiver of each instance method with a body. -/
  receivers : Std.TreeMap MethodId ValueId := ∅
  /-- The locals that hold the parameters of each method with a body. -/
  parameters : Std.TreeMap MethodId (Array ValueId) := ∅

/-- Changes of a draft. What was done before a fault stays done. -/
abbrev Drafting := EStateM Fault Draft

namespace Draft

instance : MonadLift (Except Fault) Drafting where
  monadLift x := fun d =>
    match x with
    | .ok a => .ok a d
    | .error f => .error f d

def platformFileName : String := "%sdk"

def addValue (v : Value) : Drafting ValueId :=
  modifyGet fun d =>
    (⟨d.scene.values.size⟩, { d with scene.values := d.scene.values.push v })

/-- Adds a statement at the end of a method. -/
def addStmt (m : MethodId) (kind : StmtKind) : Drafting StmtId := do
  let i : StmtId := ⟨(← get).scene.stmts.size⟩
  modify fun d => { d with scene.stmts := d.scene.stmts.push ⟨m, kind⟩ }
  let _ ← (← get).scene.method m
  modify fun d => { d with
    scene.methods := d.scene.methods.modify m.index fun decl =>
      { decl with body := decl.body.map fun b => { b with stmts := b.stmts.push i } } }
  return i

def assign (m : MethodId) (target source : ValueId) : Drafting StmtId :=
  addStmt m (.assign target source)

/-- The local of that name; it is declared if the method has none. -/
def declareLocal (m : MethodId) (name : String) (type : Ty) : Drafting ValueId := do
  match (← (← get).scene.method m).localNamed? name with
  | some v => return v
  | none =>
    let v ← addValue (.var name type)
    modify fun d => { d with
      scene.methods := d.scene.methods.modify m.index fun decl =>
        { decl with body := decl.body.map fun b => { b with locals := b.locals.insert name v } } }
    return v

def addClassDecl (name : String) (superName : Option String) (file : FileId)
    (space : Option String) (isPlatform : Bool) : Drafting ClassId :=
  modifyGet fun d =>
    let id : ClassId := ⟨d.scene.classes.size⟩
    (id, { d with
      scene.classes := d.scene.classes.push
        { id, name, superName, file, space, isPlatform, methods := ∅ } })

/-- Binds the parameters from position `index` on and gives their locals. -/
def bindFormals (m : MethodId) : (index : Nat) → List (String × Ty) → Drafting (List ValueId)
  | _, [] => return []
  | index, (name, type) :: rest => do
    let v ← declareLocal m name type
    let p ← addValue (.parameter index type)
    let _ ← assign m v p
    return v :: (← bindFormals m (index + 1) rest)

/-- What kind of method is declared. -/
structure Shape where
  isStatic : Bool := false
  isAbstract : Bool := false
  hasBody : Bool := true
  outer : Option MethodId := none

def addMethodDecl (owner : ClassId) (name : String) (shape : Shape) (params : List (String × Ty))
    (returnType : Ty) : Drafting MethodId := do
  let id : MethodId := ⟨(← get).scene.methods.size⟩
  let ownerName := (← (← get).scene.classDecl owner).name
  modify fun d => { d with
    scene.methods := d.scene.methods.push {
      id, name, owner
      signature := ⟨ownerName, name⟩
      isStatic := shape.isStatic
      isAbstract := shape.isAbstract
      params := params.map (·.2)
      returnType
      body := if shape.hasBody then some {} else none
      outer := shape.outer }
    scene.classes := d.scene.classes.modify owner.index fun c =>
      { c with methods := c.methods.insert name id } }
  if shape.hasBody then
    if !shape.isStatic then
      let v ← declareLocal id Name.receiver (.object ownerName)
      let self ← addValue (.self ownerName)
      let _ ← assign id v self
      modify fun d => { d with receivers := d.receivers.insert id v }
    let locals ← bindFormals id 0 params
    modify fun d => { d with parameters := d.parameters.insert id locals.toArray }
  return id

/-- A file comes with the class and the method of its module code. -/
def addFile (name : String) : Drafting FileId := do
  let id : FileId := ⟨(← get).scene.files.size⟩
  let owner ← addClassDecl ("@" ++ name ++ "/" ++ Name.moduleCode) none id none false
  modify fun d => { d with
    scene.files := d.scene.files.push
      { id, name, moduleClass := owner, moduleMethod := ⟨0⟩, exports := ∅, imports := ∅ } }
  let m ← addMethodDecl owner Name.moduleCode { isStatic := true } [] .void
  modify fun d => { d with
    scene.files := d.scene.files.modify id.index fun f => { f with moduleMethod := m } }
  return id

/-- The file of the platform classes, added at its first use. -/
def platform : Drafting FileId := do
  match (← get).platformFile with
  | some f => return f
  | none =>
    let f ← addFile platformFileName
    modify fun d => { d with platformFile := some f }
    return f

def addCall (m : MethodId) (target : Option ValueId) (expr : Value) : Drafting StmtId := do
  let v ← addValue expr
  match target with
  | some target => assign m target v
  | none => addStmt m (.call v)

/-- Whether a class or an ancestor declares a constructor; of several classes with one name the
first counts. The fuel bounds the number of classes looked at. -/
def hasConstructor (s : Scene) : (fuel : Nat) → (name : String) → Bool
  | 0, _ => false
  | fuel + 1, name =>
    match s.classes.toList.find? (·.name == name) with
    | none => false
    | some c =>
      c.methods.contains Name.constructor ||
        match c.superName with
        | some parent => hasConstructor s fuel parent
        | none => false

def addObject (m : MethodId) (target : ValueId) (owner : String) (args : List ValueId) :
    Drafting StmtId := do
  let object ← addValue (.new owner)
  let allocation ← assign m target object
  let s := (← get).scene
  if hasConstructor s (s.classes.size + 1) owner then
    let _ ← addCall m none (.instanceCall target ⟨owner, Name.constructor⟩ args)
  return allocation

/-- One step of construction. -/
inductive Step where
  | file (name : String)
  | moduleMethod (file : FileId)
  | classDecl (file : FileId) (name : String) (superName : Option String)
  | platformClass (name : String) (superName space : Option String)
  | method (owner : ClassId) (name : String) (params : List (String × Ty)) (returnType : Ty)
  | staticMethod (owner : ClassId) (name : String) (params : List (String × Ty)) (returnType : Ty)
  | abstractMethod (owner : ClassId) (name : String) (params : List (String × Ty))
    (returnType : Ty)
  | function (file : FileId) (name : String) (params : List (String × Ty)) (returnType : Ty)
  | closure (outer : MethodId) (name : String) (params : List (String × Ty)) (returnType : Ty)
  | platformMethod (owner : ClassId) (name : String) (isStatic : Bool)
    (params : List (String × Ty)) (returnType : Ty)
  | receiver (m : MethodId)
  | parameter (m : MethodId) (index : Nat)
  | var (m : MethodId) (name : String) (type : Ty)
  | value (v : Value)
  | assign (m : MethodId) (target source : ValueId)
  | call (m : MethodId) (target : Option ValueId) (expr : Value)
  | object (m : MethodId) (target : ValueId) (owner : String) (args : List ValueId)
  | ret (m : MethodId) (v : ValueId)
  | retVoid (m : MethodId)
  | exportLocal (file : FileId) (name : String) (v : ValueId)
  | importLocal (file : FileId) (name : String) (origin : Import)

/-- Takes a step and gives the position of what it adds or finds. -/
def Step.run : Step → Drafting (Option Nat)
  | .file name => return some (← addFile name).index
  | .moduleMethod f => return some (← (← get).scene.file f).moduleMethod.index
  | .classDecl f name superName =>
    return some (← addClassDecl name superName f none false).index
  | .platformClass name superName space => do
    let f ← platform
    return some (← addClassDecl name superName f space true).index
  | .method owner name params returnType =>
    return some (← addMethodDecl owner name {} params returnType).index
  | .staticMethod owner name params returnType =>
    return some (← addMethodDecl owner name { isStatic := true } params returnType).index
  | .abstractMethod owner name params returnType =>
    return some
      (← addMethodDecl owner name { isAbstract := true, hasBody := false } params returnType).index
  | .function f name params returnType => do
    let file ← (← get).scene.file f
    return some (← addMethodDecl file.moduleClass name
      { isStatic := true, outer := some file.moduleMethod } params returnType).index
  | .closure outer name params returnType => do
    let owner := (← (← get).scene.method outer).owner
    return some (← addMethodDecl owner name { isStatic := true, outer := some outer } params
      returnType).index
  | .platformMethod owner name isStatic params returnType =>
    return some (← addMethodDecl owner name { isStatic, hasBody := false } params returnType).index
  | .receiver m => do
    match (← get).receivers[m]? with
    | some v => return some v.index
    | none => throw (.undeclared m)
  | .parameter m index => do
    match (← get).parameters[m]?.bind (·[index]?) with
    | some v => return some v.index
    | none => throw (.undeclared m)
  | .var m name type => return some (← declareLocal m name type).index
  | .value v => return some (← addValue v).index
  | .assign m target source => return some (← Draft.assign m target source).index
  | .call m target expr => return some (← addCall m target expr).index
  | .object m target owner args => return some (← addObject m target owner args).index
  | .ret m v => return some (← addStmt m (.ret v)).index
  | .retVoid m => return some (← addStmt m .retVoid).index
  | .exportLocal f name v => do
    let _ ← (← get).scene.file f
    modify fun d => { d with
      scene.files := d.scene.files.modify f.index fun file =>
        { file with exports := file.exports.insert name v } }
    return none
  | .importLocal f name origin => do
    let _ ← (← get).scene.file f
    modify fun d => { d with
      scene.files := d.scene.files.modify f.index fun file =>
        { file with imports := file.imports.insert name origin } }
    return none

end Draft

end PointsTo
