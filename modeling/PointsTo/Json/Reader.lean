import PointsTo.Json.Basic

/-! Reading JSON text. Escapes are checked for their form only: a string that is not text is kept
as such, and it is for the decoder to refuse it. -/
namespace PointsTo.Json.Reader

def isBlank (c : Char) : Bool := c == ' ' || c == '\n' || c == '\t' || c == '\r'

def skipBlank (cs : List Char) : List Char := cs.dropWhile isBlank

def hexValue? (c : Char) : Option Nat :=
  if '0' ≤ c ∧ c ≤ '9' then some (c.toNat - '0'.toNat)
  else if 'a' ≤ c ∧ c ≤ 'f' then some (c.toNat - 'a'.toNat + 10)
  else if 'A' ≤ c ∧ c ≤ 'F' then some (c.toNat - 'A'.toNat + 10)
  else none

def hexUnit? (a b c d : Char) : Option Nat := do
  return (((← hexValue? a) * 16 + (← hexValue? b)) * 16 + (← hexValue? c)) * 16 + (← hexValue? d)

/-- The character that a short escape stands for. -/
def escaped? : Char → Option Char
  | '"' => some '"'
  | '\\' => some '\\'
  | '/' => some '/'
  | 'b' => some '\x08'
  | 'f' => some '\x0c'
  | 'n' => some '\n'
  | 'r' => some '\r'
  | 't' => some '\t'
  | _ => none

/-- A part of a string: a character, or a 16-bit unit given by its number. -/
inductive Piece where
  | plain (c : Char)
  | unit (n : Nat)

/-- The parts of a string up to its closing quote. -/
def pieces : List Char → Option (List Piece × List Char)
  | [] => none
  | '"' :: rest => some ([], rest)
  | '\\' :: 'u' :: a :: b :: c :: d :: rest => do
    let n ← hexUnit? a b c d
    let (tail, rest) ← pieces rest
    return (.unit n :: tail, rest)
  | '\\' :: c :: rest => do
    let e ← escaped? c
    let (tail, rest) ← pieces rest
    return (.plain e :: tail, rest)
  | c :: rest => do
    if c.toNat < 0x20 then failure
    let (tail, rest) ← pieces rest
    return (.plain c :: tail, rest)

/-- The text of the parts, unless a surrogate stands alone. -/
def assemble : List Piece → Option (List Char)
  | [] => some []
  | .plain c :: rest => (assemble rest).map (c :: ·)
  | .unit high :: .unit low :: rest =>
    if 0xD800 ≤ high ∧ high < 0xDC00 then
      if 0xDC00 ≤ low ∧ low < 0xE000 then
        (assemble rest).map (Char.ofNat (0x10000 + (high - 0xD800) * 0x400 + (low - 0xDC00)) :: ·)
      else none
    else if 0xDC00 ≤ high ∧ high < 0xE000 then none
    else (assemble (.unit low :: rest)).map (Char.ofNat high :: ·)
  | .unit n :: rest =>
    if 0xD800 ≤ n ∧ n < 0xE000 then none
    else (assemble rest).map (Char.ofNat n :: ·)

/-- A string after its opening quote. -/
def string (cs : List Char) : Option (Option String × List Char) := do
  let (parts, rest) ← pieces cs
  return ((assemble parts).map String.ofList, rest)

def digits (cs : List Char) : Option (List Char × List Char) :=
  match cs.span Char.isDigit with
  | ([], _) => none
  | found => some found

/-- The digits before the point, which do not start with a superfluous zero. -/
def integer (cs : List Char) : Option (List Char × List Char) := do
  let (found, rest) ← digits cs
  match found with
  | '0' :: _ :: _ => none
  | _ => return (found, rest)

/-- A point and the digits after it, if there is one. -/
def fraction : List Char → Option (List Char × List Char)
  | '.' :: rest => do
    let (found, rest) ← digits rest
    return ('.' :: found, rest)
  | rest => some ([], rest)

/-- The digits of an exponent, after an optional sign. -/
def exponentDigits : List Char → Option (List Char × List Char)
  | '+' :: rest => do
    let (found, rest) ← digits rest
    return ('+' :: found, rest)
  | '-' :: rest => do
    let (found, rest) ← digits rest
    return ('-' :: found, rest)
  | rest => digits rest

def exponent : List Char → Option (List Char × List Char)
  | 'e' :: rest => do
    let (found, rest) ← exponentDigits rest
    return ('e' :: found, rest)
  | 'E' :: rest => do
    let (found, rest) ← exponentDigits rest
    return ('E' :: found, rest)
  | rest => some ([], rest)

def ofDigits (cs : List Char) : Nat := cs.foldl (fun n c => 10 * n + (c.toNat - '0'.toNat)) 0

def unsigned (cs : List Char) : Option (Json × List Char) := do
  let (whole, rest) ← integer cs
  let (part, rest) ← fraction rest
  let (power, rest) ← exponent rest
  match part, power with
  | [], [] => return (.nat (ofDigits whole), rest)
  | _, _ => return (.number (String.ofList (whole ++ part ++ power)), rest)

def number : List Char → Option (Json × List Char)
  | '-' :: rest => do
    let (whole, rest) ← integer rest
    let (part, rest) ← fraction rest
    let (power, rest) ← exponent rest
    return (.number (String.ofList ('-' :: (whole ++ part ++ power))), rest)
  | rest => unsigned rest

mutual

/-- A value with the blanks before it. The fuel bounds the nesting of calls. -/
def value : (fuel : Nat) → List Char → Option (Json × List Char)
  | 0, _ => none
  | fuel + 1, cs =>
    match skipBlank cs with
    | [] => none
    | 'n' :: 'u' :: 'l' :: 'l' :: rest => some (.null, rest)
    | 't' :: 'r' :: 'u' :: 'e' :: rest => some (.bool true, rest)
    | 'f' :: 'a' :: 'l' :: 's' :: 'e' :: rest => some (.bool false, rest)
    | '"' :: rest => do
      let (s, rest) ← string rest
      return (.str s, rest)
    | '[' :: rest =>
      match skipBlank rest with
      | ']' :: rest => some (.arr [], rest)
      | rest => do
        let (found, rest) ← items fuel rest
        return (.arr found, rest)
    | '\x7b' :: rest =>
      match skipBlank rest with
      | '\x7d' :: rest => some (.obj [], rest)
      | rest => do
        let (found, rest) ← entries fuel rest
        return (.obj found, rest)
    | rest => number rest

/-- The items of an array that has some, with the closing bracket. -/
def items : (fuel : Nat) → List Char → Option (List Json × List Char)
  | 0, _ => none
  | fuel + 1, cs => do
    let (item, rest) ← value fuel cs
    match skipBlank rest with
    | ',' :: rest =>
      let (found, rest) ← items fuel rest
      return (item :: found, rest)
    | ']' :: rest => return ([item], rest)
    | _ => none

/-- The entries of an object that has some, with the closing brace. -/
def entries : (fuel : Nat) → List Char → Option (List (Option String × Json) × List Char)
  | 0, _ => none
  | fuel + 1, cs =>
    match skipBlank cs with
    | '"' :: rest => do
      let (key, rest) ← string rest
      match skipBlank rest with
      | ':' :: rest =>
        let (item, rest) ← value fuel rest
        match skipBlank rest with
        | ',' :: rest =>
          let (found, rest) ← entries fuel rest
          return ((key, item) :: found, rest)
        | '\x7d' :: rest => return ([(key, item)], rest)
        | _ => none
      | _ => none
    | _ => none

end

end PointsTo.Json.Reader

namespace PointsTo.Json

/-- The document that a text is. Every two nested calls of the reader consume a character, so the
fuel never runs out. -/
def parse? (source : String) : Option Json := do
  let cs := source.toList
  let (json, rest) ← Reader.value (2 * cs.length + 2) cs
  match Reader.skipBlank rest with
  | [] => return json
  | _ => none

end PointsTo.Json
