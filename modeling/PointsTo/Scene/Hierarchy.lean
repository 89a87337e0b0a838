import PointsTo.Scene.Decl
import PointsTo.Search

/-! The class hierarchy: ancestors, inherited methods and subclasses. -/
namespace PointsTo.Scene

def superClass? (s : Scene) (c : ClassId) : Except Fault (Option ClassId) := do
  return (← s.classDecl c).superName.bind s.classNamed?

/-- A class followed by its ancestors, nearest first. If the chain comes back to one of them it
stops there, and `cycle` is the name of that class. -/
structure Ancestry where
  chain : List ClassId
  cycle : Option String

/-- Extends a chain that ends in `current`. The fuel bounds the number of steps. -/
def climb (s : Scene) : (fuel : Nat) → (chain : List ClassId) → (current : ClassId) →
    Except Fault Ancestry
  | 0, chain, _ => .ok ⟨chain, none⟩
  | fuel + 1, chain, current => do
    match ← s.superClass? current with
    | none => return ⟨chain, none⟩
    | some parent =>
      if parent ∈ chain then return ⟨chain, some (← s.classDecl parent).name⟩
      else s.climb fuel (chain ++ [parent]) parent

/-- Every class on the way is another entry of the class table, so the fuel never runs out. -/
def ancestry (s : Scene) (c : ClassId) : Except Fault Ancestry :=
  s.climb (s.classes.size + 1) [c] c

/-- The first method of that name declared by a class of the chain. -/
def declaredIn? (s : Scene) (name : String) : List ClassId → Except Fault (Option MethodId)
  | [] => .ok none
  | c :: rest => do
    match (← s.classDecl c).methods.get? name with
    | some m => return some m
    | none => s.declaredIn? name rest

/-- The method that an object of class `c` has under that name. -/
def inherited? (s : Scene) (c : ClassId) (name : String) : Except Fault (Option MethodId) := do
  s.declaredIn? name (← s.ancestry c).chain

/-- The ancestors, with a notice if the hierarchy is cyclic. -/
def ancestors (s : Scene) (c : ClassId) : Scan (List ClassId) := do
  let a ← s.ancestry c
  if let some name := a.cycle then Scan.note (.cyclicHierarchy name)
  return a.chain

/-- The inherited method, with a notice if the hierarchy is cyclic. -/
def dispatch (s : Scene) (c : ClassId) (name : String) : Scan (Option MethodId) := do
  s.declaredIn? name (← s.ancestors c)

/-- The classes whose superclass is `c`. -/
def children (s : Scene) (c : ClassId) : List ClassId :=
  (s.classes.toList.filter fun d => d.superName.bind s.classNamed? == some c).map (·.id)

/-- The proper descendants of `c`, nearest first; `c` itself only if the hierarchy is cyclic.
Each class is a child of one class at most, so the fuel never runs out. -/
def subclasses (s : Scene) (c : ClassId) : List ClassId :=
  Search.reach s.children (2 * s.classes.size + 1) (s.children c)

end PointsTo.Scene
