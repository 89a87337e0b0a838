import PointsTo.Json.Decoder
import PointsTo.Json.Reader
import PointsTo.Scene.Decl

/-! Scenes from JSON documents. -/
namespace PointsTo

open Json (Decoder)
open Json.Decoder

def Signature.decode : Decoder Signature := fun levels json => do
  match ← fields ["class", "name"] levels json with
  | (l, [owner, name]) => return ⟨← required Decoder.text l owner, ← required Decoder.text l name⟩
  | _ => none

/-- Every array and object around a type counts, so the levels bound the recursion. -/
def Ty.decode : Decoder Ty
  | 0, json => do
    let (name, payload) ← alternative 0 json
    match name with
    | "Unknown" => plain .unknown payload
    | "Any" => plain .any payload
    | "Void" => plain .void payload
    | _ => none
  | levels + 1, json => do
    let (name, payload) ← alternative (levels + 1) json
    match name with
    | "Unknown" => plain .unknown payload
    | "Any" => plain .any payload
    | "Void" => plain .void payload
    | "Primitive" => (holding Decoder.text payload).map .primitive
    | "Class" => (holding Decoder.text payload).map .object
    | "Function" => (holding Signature.decode payload).map .function
    | "Array" => (holding (fun _ => decode levels) payload).map .array
    | "Union" => do
      let items ← holding (list fun _ json => some json) payload
      match levels with
      | inner + 1 => (items.mapM (decode inner)).map .union
      | 0 => none
    | _ => none

def Constant.decode : Decoder Constant := fun levels json => do
  let (name, payload) ← alternative levels json
  match name with
  | "Str" => (holding Decoder.text payload).map .str
  | "Number" => (holding Decoder.text payload).map .number
  | "Bool" => (holding flag payload).map .bool
  | "Null" => plain .null payload
  | "Undefined" => plain .undefined payload
  | _ => none

def Value.decode : Decoder Value := fun levels json => do
  let (name, payload) ← alternative levels json
  match name with
  | "Local" =>
    match ← members ["name", "ty"] payload with
    | (l, [name, type]) =>
      return .var (← required Decoder.text l name) (← required Ty.decode l type)
    | _ => none
  | "Parameter" =>
    match ← members ["index", "ty"] payload with
    | (l, [index, type]) =>
      return .parameter (← required (natBelow (1 <<< 64)) l index) (← required Ty.decode l type)
    | _ => none
  | "This" =>
    match ← members ["class"] payload with
    | (l, [owner]) => return .self (← required Decoder.text l owner)
    | _ => none
  | "InstanceField" =>
    match ← members ["base", "field"] payload with
    | (l, [base, target]) =>
      return .field (← required ref l base) (← required Signature.decode l target)
    | _ => none
  | "StaticField" =>
    match ← members ["field"] payload with
    | (l, [target]) => return .staticField (← required Signature.decode l target)
    | _ => none
  | "ArrayRef" =>
    match ← members ["base", "index"] payload with
    | (l, [base, index]) => return .element (← required ref l base) (← required ref l index)
    | _ => none
  | "New" =>
    match ← members ["class"] payload with
    | (l, [owner]) => return .new (← required Decoder.text l owner)
    | _ => none
  | "NewArray" =>
    match ← members ["elem_ty"] payload with
    | (l, [type]) => return .newArray (← required Ty.decode l type)
    | _ => none
  | "Constant" => (holding Constant.decode payload).map .constant
  | "FunctionRef" =>
    match ← members ["method"] payload with
    | (l, [target]) => return .functionRef (← required ref l target)
    | _ => none
  | "InstanceInvoke" =>
    match ← members ["base", "method", "args"] payload with
    | (l, [base, target, args]) =>
      return .instanceCall (← required ref l base) (← required Signature.decode l target)
        (← required (list ref) l args)
    | _ => none
  | "StaticInvoke" =>
    match ← members ["method", "args"] payload with
    | (l, [target, args]) =>
      return .staticCall (← required Signature.decode l target) (← required (list ref) l args)
    | _ => none
  | "PtrInvoke" =>
    match ← members ["ptr", "args"] payload with
    | (l, [pointer, args]) =>
      return .pointerCall (← required ref l pointer) (← required (list ref) l args)
    | _ => none
  | "Expr" =>
    match ← members ["operands"] payload with
    | (l, [operands]) => return .expr (← required (list ref) l operands)
    | _ => none
  | _ => none

def StmtKind.decode : Decoder StmtKind := fun levels json => do
  let (name, payload) ← alternative levels json
  match name with
  | "Assign" =>
    match ← members ["lhs", "rhs"] payload with
    | (l, [target, source]) => return .assign (← required ref l target) (← required ref l source)
    | _ => none
  | "Invoke" =>
    match ← members ["expr"] payload with
    | (l, [expr]) => return .call (← required ref l expr)
    | _ => none
  | "Return" =>
    match ← members ["op"] payload with
    | (l, [operand]) => return .ret (← required ref l operand)
    | _ => none
  | "ReturnVoid" => plain .retVoid payload
  | "Nop" => plain .nop payload
  | _ => none

def Stmt.decode : Decoder Stmt := fun levels json => do
  match ← fields ["method", "kind"] levels json with
  | (l, [method, kind]) => return ⟨← required ref l method, ← required StmtKind.decode l kind⟩
  | _ => none

def Body.decode : Decoder Body := fun levels json => do
  match ← fields ["locals", "stmts"] levels json with
  | (l, [locals, stmts]) =>
    return ⟨← required (names ref) l locals, (← required (list ref) l stmts).toArray⟩
  | _ => none

def MethodDecl.decode : Decoder MethodDecl := fun levels json => do
  match ← fields ["id", "name", "class", "signature", "is_static", "is_abstract", "params",
      "return_type", "body", "outer_method"] levels json with
  | (l, [id, name, owner, signature, isStatic, isAbstract, params, returnType, body, outer]) =>
    return {
      id := ← required ref l id
      name := ← required Decoder.text l name
      owner := ← required ref l owner
      signature := ← required Signature.decode l signature
      isStatic := ← required flag l isStatic
      isAbstract := ← required flag l isAbstract
      params := ← required (list Ty.decode) l params
      returnType := ← required Ty.decode l returnType
      body := ← maybe Body.decode l body
      outer := ← maybe ref l outer }
  | _ => none

def ClassDecl.decode : Decoder ClassDecl := fun levels json => do
  match ← fields ["id", "name", "super_class", "file", "namespace", "is_sdk", "methods"]
      levels json with
  | (l, [id, name, superName, file, space, isPlatform, methods]) =>
    return {
      id := ← required ref l id
      name := ← required Decoder.text l name
      superName := ← maybe Decoder.text l superName
      file := ← required ref l file
      space := ← maybe Decoder.text l space
      isPlatform := ← required flag l isPlatform
      methods := ← required (names ref) l methods }
  | _ => none

def Import.decode : Decoder Import := fun levels json => do
  match ← fields ["from", "name"] levels json with
  | (l, [source, name]) =>
    return ⟨← required Decoder.text l source, ← required Decoder.text l name⟩
  | _ => none

def SourceFile.decode : Decoder SourceFile := fun levels json => do
  match ← fields ["id", "name", "default_class", "default_method", "exports", "imports"]
      levels json with
  | (l, [id, name, moduleClass, moduleMethod, exports, imports]) =>
    return {
      id := ← required ref l id
      name := ← required Decoder.text l name
      moduleClass := ← required ref l moduleClass
      moduleMethod := ← required ref l moduleMethod
      exports := ← required (names ref) l exports
      imports := ← required (names Import.decode) l imports }
  | _ => none

namespace Scene

def decode : Decoder Scene := fun levels json => do
  match ← fields ["files", "classes", "methods", "stmts", "values"] levels json with
  | (l, [files, classes, methods, stmts, values]) =>
    return {
      files := (← required (list SourceFile.decode) l files).toArray
      classes := (← required (list ClassDecl.decode) l classes).toArray
      methods := (← required (list MethodDecl.decode) l methods).toArray
      stmts := (← required (list Stmt.decode) l stmts).toArray
      values := (← required (list Value.decode) l values).toArray }
  | _ => none

/-- A stored scene nests at most this many arrays and objects. -/
def maxNesting : Nat := 127

def ofJson? (json : Json) : Option Scene := decode maxNesting json

/-- The scene that a text stores. -/
def parse? (source : String) : Option Scene := (Json.parse? source).bind ofJson?

end Scene

end PointsTo
