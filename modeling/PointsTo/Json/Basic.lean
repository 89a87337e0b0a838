/-! JSON documents as they are written, with the order and the repetition of keys. -/
namespace PointsTo

inductive Json where
  | null
  | bool (b : Bool)
  /-- A number written with digits alone. -/
  | nat (n : Nat)
  /-- Any other number, by its text. -/
  | number (literal : String)
  /-- A string; `none` if its escapes name half of a surrogate pair. -/
  | str (text : Option String)
  | arr (items : List Json)
  | obj (entries : List (Option String × Json))

namespace Json

instance : Inhabited Json := ⟨.null⟩

def string (s : String) : Json := .str (some s)

/-- An object with the given fields, in order. -/
def record (fields : List (String × Json)) : Json :=
  .obj (fields.map fun field => (some field.1, field.2))

mutual

/-- Of the entries with one key only the last is kept. -/
def settled : Json → Json
  | .arr items => .arr (settledItems items)
  | .obj entries => .obj (settledEntries entries)
  | json => json

def settledItems : List Json → List Json
  | [] => []
  | item :: rest => item.settled :: settledItems rest

def settledEntries : List (Option String × Json) → List (Option String × Json)
  | [] => []
  | (key, item) :: rest =>
    if rest.any (·.1 == key) then settledEntries rest
    else (key, item.settled) :: settledEntries rest

end

/-- The value of a key; the last entry counts. -/
def get? (json : Json) (key : String) : Option Json :=
  match json with
  | .obj entries => (entries.reverse.find? (·.1 == some key)).map (·.2)
  | _ => none

end Json

end PointsTo
