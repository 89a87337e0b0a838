/-! How a span of time is written. -/
namespace PointsTo.Command

/-- A unit with its length in nanoseconds. -/
structure TimeUnit where
  name : String
  length : Nat
  /-- Whether the name is inflected. -/
  isWord : Bool := false

def second : Nat := 1000000000

/-- From the greatest to the smallest. A year has 365.25 days and a month 30.44. -/
def timeUnits : List TimeUnit :=
  [⟨"year", 31557600 * second, true⟩, ⟨"month", 2630016 * second, true⟩,
    ⟨"day", 86400 * second, true⟩, ⟨"h", 3600 * second, false⟩, ⟨"m", 60 * second, false⟩,
    ⟨"s", second, false⟩, ⟨"ms", 1000000, false⟩, ⟨"us", 1000, false⟩, ⟨"ns", 1, false⟩]

def TimeUnit.text (u : TimeUnit) (count : Nat) : List String :=
  if count = 0 then []
  else [toString count ++ u.name ++ if u.isWord && count != 1 then "s" else ""]

/-- As many of each unit as the larger ones leave. -/
def durationParts : List TimeUnit → Nat → List String
  | [], _ => []
  | u :: rest, n => u.text (n / u.length) ++ durationParts rest (n % u.length)

/-- The text of a number of nanoseconds. -/
def duration (n : Nat) : String :=
  match durationParts timeUnits n with
  | [] => "0s"
  | parts => " ".intercalate parts

end PointsTo.Command
