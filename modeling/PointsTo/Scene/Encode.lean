import PointsTo.Json.Printer
import PointsTo.Scene.Decl

/-! Scenes as JSON documents. -/
namespace PointsTo

open Json (string record)

namespace Json

def position {t : Table} (r : Ref t) : Json := .nat r.index

def positions {t : Table} (rs : List (Ref t)) : Json := .arr (rs.map position)

def orNull {α : Type} (write : α → Json) : Option α → Json
  | none => .null
  | some a => write a

/-- An alternative with what it holds. -/
def tagged (name : String) (payload : Json) : Json := record [(name, payload)]

/-- A map as an object, in the order of the keys. -/
def ofNames {α : Type} (write : α → Json) (m : NameMap α) : Json :=
  record (m.entries.map fun entry => (entry.1, write entry.2))

end Json

open Json (position positions orNull ofNames tagged)

def Signature.toJson (s : Signature) : Json :=
  record [("class", string s.owner), ("name", string s.name)]

namespace Ty

mutual

def toJson : Ty → Json
  | .unknown => string "Unknown"
  | .any => string "Any"
  | .void => string "Void"
  | .primitive name => tagged "Primitive" (string name)
  | .object owner => tagged "Class" (string owner)
  | .array element => tagged "Array" element.toJson
  | .function target => tagged "Function" target.toJson
  | .union alternatives => tagged "Union" (.arr (toJsons alternatives))

def toJsons : List Ty → List Json
  | [] => []
  | t :: rest => t.toJson :: toJsons rest

end

end Ty

def Constant.toJson : Constant → Json
  | .str s => tagged "Str" (string s)
  | .number literal => tagged "Number" (string literal)
  | .bool b => tagged "Bool" (.bool b)
  | .null => string "Null"
  | .undefined => string "Undefined"

def Value.toJson : Value → Json
  | .var name type => tagged "Local" (record [("name", string name), ("ty", type.toJson)])
  | .parameter index type =>
    tagged "Parameter" (record [("index", .nat index), ("ty", type.toJson)])
  | .self owner => tagged "This" (record [("class", string owner)])
  | .field base target =>
    tagged "InstanceField" (record [("base", position base), ("field", target.toJson)])
  | .staticField target => tagged "StaticField" (record [("field", target.toJson)])
  | .element base index =>
    tagged "ArrayRef" (record [("base", position base), ("index", position index)])
  | .new owner => tagged "New" (record [("class", string owner)])
  | .newArray type => tagged "NewArray" (record [("elem_ty", type.toJson)])
  | .constant c => tagged "Constant" c.toJson
  | .functionRef target => tagged "FunctionRef" (record [("method", position target)])
  | .instanceCall base target args =>
    tagged "InstanceInvoke"
      (record [("base", position base), ("method", target.toJson), ("args", positions args)])
  | .staticCall target args =>
    tagged "StaticInvoke" (record [("method", target.toJson), ("args", positions args)])
  | .pointerCall pointer args =>
    tagged "PtrInvoke" (record [("ptr", position pointer), ("args", positions args)])
  | .expr operands => tagged "Expr" (record [("operands", positions operands)])

def StmtKind.toJson : StmtKind → Json
  | .assign target source =>
    tagged "Assign" (record [("lhs", position target), ("rhs", position source)])
  | .call expr => tagged "Invoke" (record [("expr", position expr)])
  | .ret operand => tagged "Return" (record [("op", position operand)])
  | .retVoid => string "ReturnVoid"
  | .nop => string "Nop"

def Stmt.toJson (s : Stmt) : Json :=
  record [("method", position s.method), ("kind", s.kind.toJson)]

def Body.toJson (b : Body) : Json :=
  record [("locals", ofNames position b.locals), ("stmts", positions b.stmts.toList)]

def MethodDecl.toJson (m : MethodDecl) : Json :=
  record [("id", position m.id), ("name", string m.name), ("class", position m.owner),
    ("signature", m.signature.toJson), ("is_static", .bool m.isStatic),
    ("is_abstract", .bool m.isAbstract), ("params", .arr (m.params.map Ty.toJson)),
    ("return_type", m.returnType.toJson), ("body", orNull Body.toJson m.body),
    ("outer_method", orNull position m.outer)]

def ClassDecl.toJson (c : ClassDecl) : Json :=
  record [("id", position c.id), ("name", string c.name), ("super_class", orNull string c.superName),
    ("file", position c.file), ("namespace", orNull string c.space),
    ("is_sdk", .bool c.isPlatform), ("methods", ofNames position c.methods)]

def Import.toJson (i : Import) : Json :=
  record [("from", string i.source), ("name", string i.name)]

def SourceFile.toJson (f : SourceFile) : Json :=
  record [("id", position f.id), ("name", string f.name), ("default_class", position f.moduleClass),
    ("default_method", position f.moduleMethod), ("exports", ofNames position f.exports),
    ("imports", ofNames Import.toJson f.imports)]

namespace Scene

def toJson (s : Scene) : Json :=
  record [("files", .arr (s.files.toList.map SourceFile.toJson)),
    ("classes", .arr (s.classes.toList.map ClassDecl.toJson)),
    ("methods", .arr (s.methods.toList.map MethodDecl.toJson)),
    ("stmts", .arr (s.stmts.toList.map Stmt.toJson)),
    ("values", .arr (s.values.toList.map Value.toJson))]

/-- The text that a scene is stored as. -/
def render (s : Scene) : String := s.toJson.pretty

end Scene

end PointsTo
