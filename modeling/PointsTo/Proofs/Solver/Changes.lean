import PointsTo.Proofs.Flow.Changes
import PointsTo.Proofs.Sets
import PointsTo.Solver

/-! By the changes that the solver makes, sets only grow, and all they hold are objects. -/
namespace PointsTo

/-- All elements of a set are objects of the graph. -/
def ObjectSet.Objects (set : ObjectSet) (g : FlowGraph) : Prop :=
  ∀ o, set.contains o = true → g.IsObject o

namespace Solver

/-- Sets hold objects only. -/
structure Ordered (s : Scene) (v : Solver) : Prop where
  graph : v.graph.Ordered s
  points : ∀ n o, v.points.Has n o → v.graph.IsObject o

/-- One change of what the solver works on. -/
inductive Change (s : Scene) (v : Solver) : Solver → Prop where
  | graph {g : FlowGraph} : v.graph.Change s g → Change s v { v with graph := g }
  | gain {n : NodeId} {P : NodeId → Prop} {r : Bool × DiffTable} : v.points.Gains n P r →
      (∀ o, P o → v.graph.IsObject o) → Change s v { v with points := r.2 }
  | flush (n : NodeId) : Change s v { v with points := v.points.flush n }
  | record (cursor : Nat) (queue : Queue NodeId)
      (receivers : Std.TreeMap NodeId (Std.TreeSet NodeId)) (changed : Bool) :
      Change s v { v with cursor, queue, receivers, changed }

/-- Any number of changes. -/
abbrev Changes (s : Scene) : Solver → Solver → Prop := Relation.ReflTransGen (Change s)

variable {s : Scene} {v v' : Solver}

theorem Change.graph_extends (h : v.Change s v') : v.graph.Extends v'.graph := by
  cases h with
  | graph h => exact h.extends
  | gain | flush | record => exact .refl _

/-- What is settled stays in the set. -/
theorem Change.has (h : v.Change s v') {n o : NodeId} (ho : v.points.Has n o) :
    v'.points.Has n o := by
  cases h with
  | gain hgains _ => exact (hgains.has n o).2 (.inl ho)
  | flush => exact DiffTable.has_flush.2 ho
  | graph | record => exact ho

theorem Change.ordered (h : v.Change s v') (hv : v.Ordered s) : v'.Ordered s := by
  cases h with
  | graph h => exact ⟨h.ordered hv.graph, fun n o ho => h.extends.isObject (hv.points n o ho)⟩
  | gain hgains hobjects =>
    refine ⟨hv.graph, fun n o ho => ?_⟩
    rcases (hgains.has n o).1 ho with ho | ⟨-, ho⟩
    · exact hv.points n o ho
    · exact hobjects o ho
  | flush => exact ⟨hv.graph, fun n o ho => hv.points n o (DiffTable.has_flush.1 ho)⟩
  | record => exact ⟨hv.graph, hv.points⟩

theorem Changes.graph_extends (h : v.Changes s v') : v.graph.Extends v'.graph := by
  induction h with
  | refl => exact .refl _
  | tail _ hchange ih => exact ih.trans hchange.graph_extends

theorem Changes.ordered (h : v.Changes s v') (hv : v.Ordered s) : v'.Ordered s := by
  induction h with
  | refl => exact hv
  | tail _ hchange ih => exact hchange.ordered ih

theorem Changes.isObject (h : v.Changes s v') {o : NodeId} (ho : v.graph.IsObject o) :
    v'.graph.IsObject o :=
  h.graph_extends.isObject ho

theorem changes_graph {g : FlowGraph} (h : v.graph.Changes s g) :
    v.Changes s { v with graph := g } :=
  h.lift (fun g => ({ v with graph := g } : Solver)) fun _ _ hchange => .graph hchange

/-- What solving keeps, also where it fails. -/
def growth (s : Scene) : Guard Failure Solver where
  Holds := Ordered s
  Later := Changes s
  Fails _ _ := True
  refl _ := .refl
  trans := .trans

end Solver

end PointsTo
