/-! Texts as lists of lines. -/
namespace PointsTo.Text

/-- Lines with a line end each. -/
def unlines (lines : List String) : String := String.join (lines.map (· ++ "\n"))

/-- A line without a carriage return at its end. -/
def bare (line : String) : String :=
  match line.toList.reverse with
  | '\r' :: rest => String.ofList rest.reverse
  | _ => line

/-- The lines of a text. A carriage return before a line end belongs to it, and nothing follows
the last line end. -/
def lines (text : String) : List String :=
  let parts := text.splitOn "\n"
  parts.dropLast.map bare ++ parts.getLast?.toList.filter (· ≠ "")

end PointsTo.Text
