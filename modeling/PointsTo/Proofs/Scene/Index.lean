import PointsTo.Proofs.Lookup
import PointsTo.Scene.Hierarchy

/-! Looking up classes, methods and subclasses is looking into tables that are filled in one pass over
the declarations, later entries in place of earlier ones. -/
namespace PointsTo.Scene

def classTable (s : Scene) : Std.TreeMap String ClassId :=
  s.classes.toList.foldl (fun t c => t.insert c.name c.id) ∅

def methodTable (s : Scene) : Std.TreeMap Signature MethodId :=
  s.methods.toList.foldl (fun t m => t.insert m.signature m.id) ∅

/-- The subclasses of each class, in the order of their declarations. A class whose superclass has no
declaration is a subclass of none. -/
def subclassTable (s : Scene) : Std.TreeMap ClassId (List ClassId) :=
  s.classes.toList.foldl (fun t c =>
    match c.superName.bind (s.classTable[·]?) with
    | some parent => t.insert parent ((t[parent]?).getD [] ++ [c.id])
    | none => t) ∅

section

variable {α κ β : Type} [Ord κ] [Std.TransOrd κ] [Std.LawfulEqOrd κ] [DecidableEq κ]

/-- The last entry of a key is found. -/
theorem getElem?_foldl_insert (key : α → κ) (val : α → β) (l : List α) (t : Std.TreeMap κ β)
    (k : κ) : (l.foldl (fun t a => t.insert (key a) (val a)) t)[k]? =
      ((l.reverse.find? (key · == k)).map val).or t[k]? := by
  induction l generalizing t with
  | nil => rfl
  | cons a l ih =>
    rw [List.foldl_cons, ih, List.reverse_cons, List.find?_append, getElem?_insert]
    cases l.reverse.find? (key · == k) with
    | some b => rfl
    | none => by_cases h : key a = k <;> simp [h]

end

theorem getElem?_classTable (s : Scene) (name : String) :
    s.classTable[name]? = s.classNamed? name := by
  rw [classTable, getElem?_foldl_insert, Std.TreeMap.getElem?_emptyc, Option.or_none]
  rfl

theorem getElem?_methodTable (s : Scene) (signature : Signature) :
    s.methodTable[signature]? = s.methodOf? signature := by
  rw [methodTable, getElem?_foldl_insert, Std.TreeMap.getElem?_emptyc, Option.or_none]
  rfl

private theorem getElem?_foldl_append (parent? : ClassDecl → Option ClassId) (l : List ClassDecl)
    (t : Std.TreeMap ClassId (List ClassId)) (c : ClassId) :
    ((l.foldl (fun t d =>
      match parent? d with
      | some parent => t.insert parent ((t[parent]?).getD [] ++ [d.id])
      | none => t) t)[c]?).getD [] =
      (t[c]?).getD [] ++ (l.filter fun d => parent? d == some c).map (·.id) := by
  induction l generalizing t with
  | nil => simp
  | cons d l ih =>
    rw [List.foldl_cons, ih, List.filter_cons]
    cases hd : parent? d with
    | none => simp
    | some parent =>
      rw [getElem?_insert]
      by_cases h : parent = c <;> simp [h]

theorem getElem?_subclassTable (s : Scene) (c : ClassId) :
    (s.subclassTable[c]?).getD [] = s.children c := by
  rw [subclassTable, getElem?_foldl_append, Std.TreeMap.getElem?_emptyc, Option.getD_none,
    List.nil_append, children]
  simp only [getElem?_classTable]

end PointsTo.Scene
