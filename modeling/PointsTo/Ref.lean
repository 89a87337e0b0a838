/-! Typed positions in the tables of a program and of its analysis. -/
namespace PointsTo

/-- The tables whose entries are referred to by position. -/
inductive Table where
  | file | classDecl | method | stmt | value | site | context | item | node | edge
deriving DecidableEq

/-- A position in a table, counted from zero. -/
structure Ref (t : Table) where
  index : Nat
deriving DecidableEq

abbrev FileId := Ref .file
abbrev ClassId := Ref .classDecl
abbrev MethodId := Ref .method
abbrev StmtId := Ref .stmt
abbrev ValueId := Ref .value
abbrev SiteId := Ref .site
abbrev ContextId := Ref .context
abbrev ItemId := Ref .item
abbrev NodeId := Ref .node
abbrev EdgeId := Ref .edge

namespace Ref

@[simp] theorem index_inj {t : Table} {a b : Ref t} : a.index = b.index ↔ a = b := by
  cases a; cases b; simp

instance {t : Table} : Ord (Ref t) := ⟨fun a b => compare a.index b.index⟩

instance {t : Table} : Std.TransOrd (Ref t) :=
  inferInstanceAs (Std.TransCmp (compareOn (@Ref.index t)))

instance {t : Table} : Std.LawfulEqOrd (Ref t) where
  eq_of_compare {a b} h := by
    have h' : compare a.index b.index = .eq := h
    cases a; cases b
    simpa using h'

/-- How a position is written in messages and dumps. -/
def label : {t : Table} → Ref t → String
  | .file, r => s!"file{r.index}"
  | .classDecl, r => s!"class{r.index}"
  | .method, r => s!"method{r.index}"
  | .stmt, r => s!"stmt{r.index}"
  | .value, r => s!"value{r.index}"
  | .site, r => s!"CallSite({r.index})"
  | .context, r => s!"ContextId({r.index})"
  | .item, r => s!"ContextItemId({r.index})"
  | .node, r => s!"NodeIndex({r.index})"
  | .edge, r => s!"EdgeIndex({r.index})"

/-- How an optional position is written. -/
def optionLabel {t : Table} : Option (Ref t) → String
  | some r => "Some(" ++ r.label ++ ")"
  | none => "None"

end Ref

end PointsTo
