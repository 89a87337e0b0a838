import PointsTo.Json.Decoder
import PointsTo.Json.Reader
import PointsTo.Settings

/-! The arguments of the command. -/
namespace PointsTo.Command

structure Arguments where
  settings : Settings := {}
  /-- The files that were named, of which the last one counts. -/
  inputs : List String := []
  showsStatistics : Bool := false
  callGraphFile : Option String := none
  pointsFile : Option String := none

/-- Why arguments do not lead to a run. -/
inductive Stop where
  | invalid
  | help (detailed : Bool)
  | version
deriving DecidableEq

inductive Flag where
  | entry | scale | policy | depth | collection | statistics | callGraph | points | help | version
deriving DecidableEq

namespace Flag

def names : List (String × Flag) :=
  [("entry", .entry), ("scale", .scale), ("context-type", .policy), ("context-depth", .depth),
    ("pts-collection", .collection), ("dump-stats", .statistics),
    ("dump-call-graph", .callGraph), ("dump-pts", .points), ("help", .help),
    ("version", .version)]

def takesValue : Flag → Bool
  | .statistics | .help | .version => false
  | _ => true

end Flag

/-- The number that a text with an optional sign denotes, if it has 32 bits. -/
def depth? (text : String) : Option Nat :=
  let (negative, digits) :=
    match text.toList with
    | '-' :: rest => (true, rest)
    | '+' :: rest => (false, rest)
    | rest => (false, rest)
  if digits.isEmpty || !digits.all Char.isDigit then none
  else
    let n := digits.foldl (fun n c => 10 * n + (c.toNat - '0'.toNat)) 0
    if n < 1 <<< 32 && (!negative || n == 0) then some n else none

def scales : List (String × Scale) :=
  [("whole-program", .wholeProgram), ("method-level", .methodLevel)]

def policies : List (String × Policy) :=
  [("callsite", .callSite), ("cs", .callSite), ("object", .object), ("obj", .object),
    ("function", .function), ("func", .function)]

def collections : List (String × Collection) :=
  [("bitvec", .dense), ("hashset", .sparse default)]

/-- A change of the arguments. -/
abbrev Change := Arguments → Arguments

/-- What a flag with a value changes; `none` if the value is not allowed. Entries are collected
by `Parsed.apply`. -/
def Flag.change? (flag : Flag) (text : String) : Option Change :=
  let onSettings (f : Settings → Settings) : Change := fun a =>
    { a with settings := f a.settings }
  match flag with
  | .scale => (scales.lookup text).map fun scale => onSettings ({ · with scale })
  | .policy => (policies.lookup text).map fun policy => onSettings ({ · with policy })
  | .depth => (depth? text).map fun depth => onSettings ({ · with depth })
  | .collection => (collections.lookup text).map fun collection => onSettings ({ · with collection })
  | .callGraph => some fun a => { a with callGraphFile := some text }
  | .points => some fun a => { a with pointsFile := some text }
  | _ => some id

/-- What was read so far. -/
structure Parsed where
  /-- The flags in order, with their values. -/
  flags : List (Flag × Option String) := []
  inputs : List String := []

namespace Parsed

def addInput (p : Parsed) (text : String) : Parsed := { p with inputs := p.inputs ++ [text] }

def addFlag (p : Parsed) (flag : Flag) (text : Option String) : Parsed :=
  { p with flags := p.flags ++ [(flag, text)] }

def valuesOf (p : Parsed) (flag : Flag) : List (Option String) :=
  (p.flags.filter (·.1 == flag)).map (·.2)

/-- Only entries are given more than once, and a flag that needs a value has one. -/
def isValid (p : Parsed) : Bool :=
  p.flags.all fun (flag, _) =>
    (flag == .entry || (p.valuesOf flag).length == 1) &&
      (!flag.takesValue || (p.valuesOf flag).any Option.isSome)

/-- Applies what was read to the arguments from before. Inputs are added to the earlier ones;
entries replace them. -/
def apply (p : Parsed) (a : Arguments) : Arguments :=
  let a := p.flags.foldl (fun a (flag, text) =>
    ((text.bind flag.change?).getD id) a) a
  let entries := (p.valuesOf .entry).filterMap id
  { a with
    inputs := a.inputs ++ p.inputs
    showsStatistics := a.showsStatistics || !(p.valuesOf .statistics).isEmpty
    settings := if entries.isEmpty then a.settings else { a.settings with entries } }

end Parsed

/-- The flag and the value behind two dashes. -/
def splitLong (text : List Char) : String × Option String :=
  match text.span (· != '=') with
  | (name, _ :: rest) => (String.ofList name, some (String.ofList rest))
  | (name, []) => (String.ofList name, none)

/-- Adds a flag with its value, if that is allowed. -/
def withValue (p : Parsed) (flag : Flag) (text : String) : Except Stop Parsed :=
  if (flag.change? text).isSome then .ok (p.addFlag flag (some text)) else .error .invalid

/-- Reads one flag; the second part of the result is the flag if it waits for a value. -/
def readLong (p : Parsed) (text : List Char) : Except Stop (Parsed × Option Flag) :=
  let (name, attached) := splitLong text
  match Flag.names.lookup name, attached with
  | none, _ => .error .invalid
  | some flag, some v =>
    if flag.takesValue then do return (← withValue p flag v, none) else .error .invalid
  | some .help, none => .error (.help true)
  | some .version, none => .error .version
  | some flag, none =>
    if flag.takesValue then .ok (p, some flag) else .ok (p.addFlag flag none, none)

/-- A flag that waits for a value gets none. -/
def dismiss (p : Parsed) (waiting : Option Flag) : Parsed :=
  match waiting with
  | some flag => p.addFlag flag none
  | none => p

/-- Reads arguments from left to right. After two dashes all of them are inputs. -/
def read (p : Parsed) (waiting : Option Flag) : List String → Except Stop Parsed
  | [] => .ok (dismiss p waiting)
  | text :: rest =>
    match text.toList with
    | ['-', '-'] => .ok (rest.foldl Parsed.addInput (dismiss p waiting))
    | '-' :: '-' :: long => do
      let (p, waiting) ← readLong (dismiss p waiting) long
      read p waiting rest
    | '-' :: 'h' :: _ => .error (.help false)
    | '-' :: 'V' :: _ => .error .version
    | '-' :: _ :: _ => .error .invalid
    | _ =>
      match waiting with
      | some flag => do read (← withValue p flag text) none rest
      | none => read (p.addInput text) none rest

/-- Takes further arguments into account. What they do not mention stays as it is. -/
def Arguments.extend (a : Arguments) (texts : List String) : Except Stop Arguments := do
  let p ← read {} none texts
  if p.isValid then return p.apply a else throw .invalid

/-- The arguments in an environment variable: a JSON list of strings; anything else stands for
no arguments. -/
def flagsOf (environment : String) : List String :=
  ((Json.parse? environment).bind (Json.Decoder.list Json.Decoder.text 127)).getD []

/-- Arguments of the command line win over those of the environment. -/
def Arguments.parse (environment : String) (texts : List String) : Except Stop Arguments := do
  (← ({} : Arguments).extend (flagsOf environment)).extend texts

end PointsTo.Command
