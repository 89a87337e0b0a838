import PointsTo.Json.Basic
import PointsTo.Ref
import PointsTo.Scene.NameMap

/-! Typed readings of JSON documents. A decoder is given the number of arrays and objects that may
still be nested in what it reads. Parts that are not asked for are not looked at. -/
namespace PointsTo.Json

abbrev Decoder (α : Type) := (levels : Nat) → Json → Option α

namespace Decoder

variable {α : Type}

def text : Decoder String
  | _, .str s => s
  | _, _ => none

def flag : Decoder Bool
  | _, .bool b => some b
  | _, _ => none

def natBelow (bound : Nat) : Decoder Nat
  | _, .nat n => if n < bound then some n else none
  | _, _ => none

/-- Positions have 32 bits. -/
def ref {t : Table} : Decoder (Ref t) := fun levels json =>
  (natBelow (1 <<< 32) levels json).map Ref.mk

def list (item : Decoder α) : Decoder (List α)
  | levels + 1, .arr items => items.mapM (item levels)
  | _, _ => none

def optional (item : Decoder α) : Decoder (Option α)
  | _, .null => some none
  | levels, json => (item levels json).map some

/-- An object as a map; of several entries with one key the last counts. -/
def names (item : Decoder α) : Decoder (NameMap α)
  | levels + 1, .obj entries => do
    let found ← entries.mapM fun entry => do return (← entry.1, ← item levels entry.2)
    return NameMap.ofList found
  | _, _ => none

/-- The value of a field, `none` if it is left out. A field must not be repeated. -/
def field? (entries : List (Option String × Json)) (name : String) : Option (Option Json) :=
  match entries.filter (·.1 == some name) with
  | [] => some none
  | [entry] => some (some entry.2)
  | _ => none

/-- The fields of a record, written as an object with these keys among others or as an array of all
of them in order. -/
def fields (names : List String) : Decoder (Nat × List (Option Json))
  | levels + 1, .arr items =>
    if items.length = names.length then some (levels, items.map some) else none
  | levels + 1, .obj entries =>
    if entries.all (·.1.isSome) then do return (levels, ← names.mapM (field? entries)) else none
  | _, _ => none

/-- A field that has to be there. -/
def required (item : Decoder α) (levels : Nat) (json : Option Json) : Option α :=
  json.bind (item levels)

/-- A field that may be left out. -/
def maybe (item : Decoder α) (levels : Nat) (json : Option Json) : Option (Option α) :=
  match json with
  | none => some none
  | some json => optional item levels json

/-- The name of an alternative and what it holds, if anything. -/
def alternative : Decoder (String × Option (Nat × Json))
  | _, .str (some name) => some (name, none)
  | levels + 1, .obj [(some name, payload)] => some (name, some (levels, payload))
  | _, _ => none

/-- An alternative that holds nothing. -/
def plain (a : α) : Option (Nat × Json) → Option α
  | none => some a
  | some (_, .null) => some a
  | some _ => none

/-- An alternative that holds something. -/
def holding (item : Decoder α) : Option (Nat × Json) → Option α
  | none => none
  | some (levels, json) => item levels json

/-- An alternative that holds a record with these fields. -/
def members (names : List String) (payload : Option (Nat × Json)) :
    Option (Nat × List (Option Json)) := holding (fields names) payload

end Decoder

end PointsTo.Json
