import PointsTo.Json.Basic

/-! Writing JSON text over several lines. -/
namespace PointsTo.Json

/-- A character inside a JSON string. -/
def escapeChar (c : Char) : List Char :=
  if c = '"' then ['\\', '"']
  else if c = '\\' then ['\\', '\\']
  else if c = '\x08' then ['\\', 'b']
  else if c = '\x0c' then ['\\', 'f']
  else if c = '\n' then ['\\', 'n']
  else if c = '\r' then ['\\', 'r']
  else if c = '\t' then ['\\', 't']
  else if c.toNat < 0x20 then
    ['\\', 'u', '0', '0', Nat.digitChar (c.toNat / 16), Nat.digitChar (c.toNat % 16)]
  else [c]

def quote (s : String) : List Char := '"' :: (s.toList.flatMap escapeChar ++ ['"'])

/-- A line break and the indentation of the next line, two spaces a level. -/
def newline (level : Nat) : List Char := '\n' :: List.replicate (2 * level) ' '

mutual

/-- The text of a document whose first line stands at an indentation level. -/
def lines (level : Nat) : Json → List Char
  | .null => ['n', 'u', 'l', 'l']
  | .bool true => ['t', 'r', 'u', 'e']
  | .bool false => ['f', 'a', 'l', 's', 'e']
  | .nat n => Nat.toDigits 10 n
  | .number literal => literal.toList
  | .str (some s) => quote s
  | .str none => quote ""
  | .arr [] => ['[', ']']
  | .arr (item :: rest) =>
    '[' :: (newline (level + 1) ++ lines (level + 1) item ++ itemLines (level + 1) rest
      ++ newline level ++ [']'])
  | .obj [] => ['\x7b', '\x7d']
  | .obj (entry :: rest) =>
    '\x7b' :: (newline (level + 1) ++ entryLine (level + 1) entry ++ entryLines (level + 1) rest
      ++ newline level ++ ['\x7d'])

/-- The items after the first. -/
def itemLines (level : Nat) : List Json → List Char
  | [] => []
  | item :: rest => ',' :: (newline level ++ lines level item ++ itemLines level rest)

def entryLine (level : Nat) : Option String × Json → List Char
  | (key, item) => quote (key.getD "") ++ [':', ' '] ++ lines level item

/-- The entries after the first. -/
def entryLines (level : Nat) : List (Option String × Json) → List Char
  | [] => []
  | entry :: rest => ',' :: (newline level ++ entryLine level entry ++ entryLines level rest)

end

def pretty (json : Json) : String := String.ofList (lines 0 json)

end PointsTo.Json
