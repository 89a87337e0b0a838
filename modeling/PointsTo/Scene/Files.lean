import PointsTo.Scene.Decl

/-! Files and methods by the names a user writes. -/
namespace PointsTo.Scene

/-- The text before and after the last occurrence of a character. -/
def splitLast (c : Char) (text : List Char) : Option (List Char × List Char) :=
  match text.reverse.span (· != c) with
  | (after, _ :: before) => some (before.reverse, after.reverse)
  | (_, []) => none

/-- A file name without its extension. -/
def stem (name : List Char) : List Char :=
  match splitLast '.' name with
  | some (before, _) => before
  | none => name

/-- A path without its leading references to the current directory. -/
def dropCurrent : List Char → List Char
  | '.' :: '/' :: rest => dropCurrent rest
  | name => name

/-- Whether a file answers to a name: it has that name, or their stems agree, or its stem ends with
the wanted one as a path component. -/
def answersTo (file : SourceFile) (name : String) : Bool :=
  let wanted := stem (dropCurrent name.toList)
  let own := stem file.name.toList
  file.name == name || own == wanted || ('/' :: wanted).isSuffixOf own

/-- The first file that answers to the name. -/
def fileNamed? (s : Scene) (name : String) : Option FileId :=
  (s.files.toList.find? (answersTo · name)).map (·.id)

/-- The method that `Class.method` names, if the text is such a signature of the scene. -/
def methodBySignature? (s : Scene) (name : String) : Option MethodId := do
  let (owner, method) ← splitLast '.' name.toList
  s.methodOf? ⟨String.ofList owner, String.ofList method⟩

/-- A method by its signature, by its file (which stands for the module code), or by its own name
if only one method has it. -/
def methodNamed? (s : Scene) (name : String) : Except Fault (Option MethodId) :=
  match s.methodBySignature? name with
  | some m => .ok (some m)
  | none =>
    match s.fileNamed? name with
    | some f => do return some (← s.file f).moduleMethod
    | none =>
      match s.methods.toList.filter (·.name == name) with
      | [m] => .ok (some m.id)
      | _ => .ok none

end PointsTo.Scene
