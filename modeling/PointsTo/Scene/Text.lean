import PointsTo.Scene.Decl
import PointsTo.Text.Quoted

/-! How values are written in reports. -/
namespace PointsTo

def Constant.text : Constant → String
  | .str text => "Str(" ++ Text.quoted text ++ ")"
  | .number literal => "Number(" ++ Text.quoted literal ++ ")"
  | .bool true => "Bool(true)"
  | .bool false => "Bool(false)"
  | .null => "Null"
  | .undefined => "Undefined"

namespace Scene

/-- The text of a value; the fuel bounds the nesting of its operands. -/
def textWithin (s : Scene) : (fuel : Nat) → ValueId → Except Fault String
  | 0, v => .error (.cyclicValue v)
  | fuel + 1, v => do
    match ← s.value v with
    | .var name _ => return name
    | .parameter index _ => return s!"parameter{index}"
    | .self owner => return "this: " ++ owner
    | .field base target => return (← s.textWithin fuel base) ++ "." ++ target.name
    | .staticField target => return target.text
    | .element base index =>
      return (← s.textWithin fuel base) ++ "[" ++ (← s.textWithin fuel index) ++ "]"
    | .new owner => return "new " ++ owner
    | .newArray element => return "new " ++ element.text ++ "[]"
    | .constant c => return c.text
    | .functionRef target => return "fn " ++ (← s.method target).signature.text
    | .instanceCall base target _ =>
      return (← s.textWithin fuel base) ++ ".<" ++ target.text ++ ">()"
    | .staticCall target _ => return "<" ++ target.text ++ ">()"
    | .pointerCall pointer _ => return (← s.textWithin fuel pointer) ++ "()"
    | .expr _ => return "expr"

/-- The text of a value. Operands of values that are not cyclic nest no deeper than the value table
is long. -/
def text (s : Scene) (v : ValueId) : Except Fault String := s.textWithin (s.values.size + 1) v

/-- Passes over values. If that is explained, the first of them without a text is a fault. -/
def leaveOut (s : Scene) (explains : Bool) (vs : List ValueId) : Except Fault Unit :=
  if explains then vs.forM fun v => discard (s.text v) else return

end Scene

end PointsTo
