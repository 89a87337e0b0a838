import PointsTo.Scene.Files

/-! Lexical scoping: what a local that a method does not declare refers to. -/
namespace PointsTo.Scene

def isDeclaredIn (s : Scene) (m : MethodId) (v : ValueId) : Except Fault Bool := do
  return (← s.method m).declares v

/-- What a name refers to. -/
inductive Resolution where
  /-- The local `v` of the method `owner`. -/
  | bound (owner : MethodId) (v : ValueId)
  | sourceMissing (source name : String)
  | notExported (file name : String)
  | unbound
deriving DecidableEq

/-- The nearest declaration on the chain of enclosing methods. Each method is asked once, and the
fuel bounds their number. -/
def enclosing? (s : Scene) (name : String) : (fuel : Nat) → (seen : List MethodId) →
    Option MethodId → Except Fault (Option (MethodId × ValueId))
  | 0, _, _ => .ok none
  | _ + 1, _, none => .ok none
  | fuel + 1, seen, some m =>
    if m ∈ seen then .ok none
    else do
      let decl ← s.method m
      match decl.localNamed? name with
      | some v => return some (m, v)
      | none => s.enclosing? name fuel (m :: seen) decl.outer

/-- What the imports of a file give for a name. -/
def imported (s : Scene) (file : SourceFile) (name : String) : Except Fault Resolution :=
  match file.imports.get? name with
  | none => .ok .unbound
  | some wanted =>
    match s.fileNamed? wanted.source with
    | none => .ok (.sourceMissing wanted.source name)
    | some f => do
      let source ← s.file f
      match source.exports.get? wanted.name with
      | some v => return .bound source.moduleMethod v
      | none => return .notExported source.name wanted.name

/-- Resolves the local `v` used in `m`: first the enclosing methods, then the module code of the
file, then its imports. -/
def resolve (s : Scene) (m : MethodId) (v : ValueId) : Except Fault Resolution := do
  match (← s.value v).localName? with
  | none => return .unbound
  | some name =>
    match ← s.enclosing? name (s.methods.size + 1) [] (← s.method m).outer with
    | some (owner, d) => return .bound owner d
    | none =>
      let file ← s.fileOfMethod m
      if file.moduleMethod = m then s.imported file name
      else
        match (← s.method file.moduleMethod).localNamed? name with
        | some d => return .bound file.moduleMethod d
        | none => s.imported file name

/-- The declaration behind a local, with a notice if an import leads nowhere. -/
def resolveLocal (s : Scene) (m : MethodId) (v : ValueId) :
    Scan (Option (MethodId × ValueId)) := do
  match ← s.resolve m v with
  | .bound owner d => return some (owner, d)
  | .sourceMissing source name =>
    Scan.note (.missingImportSource source name)
    return none
  | .notExported file name =>
    Scan.note (.missingExport file name)
    return none
  | .unbound => return none

end PointsTo.Scene
