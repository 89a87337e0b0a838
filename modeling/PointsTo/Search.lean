/-! Breadth-first search over a finite successor relation. -/
namespace PointsTo.Search

variable {α : Type} [DecidableEq α]

/-- Visits what `queue` leads to over `next`, after what is in `seen`, latest first. The fuel bounds
the number of entries taken from the queue. -/
def visit (next : α → List α) : (fuel : Nat) → (seen queue : List α) → List α
  | 0, seen, _ => seen
  | _ + 1, seen, [] => seen
  | fuel + 1, seen, a :: queue =>
    if a ∈ seen then visit next fuel seen queue
    else visit next fuel (a :: seen) (queue ++ next a)

/-- Everything that the starting points lead to in any number of steps, in breadth-first order.
The fuel has to exceed the starting points and the steps leaving what is reached. -/
def reach (next : α → List α) (fuel : Nat) (start : List α) : List α :=
  (visit next fuel [] start).reverse

end PointsTo.Search
