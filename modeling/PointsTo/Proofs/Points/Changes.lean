import Mathlib.Data.Finset.Card
import Mathlib.Logic.Function.Basic
import PointsTo.Proofs.Sets

/-! Points-to data in two parts refine a map from nodes to finite sets. -/
namespace PointsTo

namespace ObjectSet

/-- The finite set of the members, whatever the representation. -/
def members (s : ObjectSet) : Finset NodeId := s.toList.toFinset

@[simp]
theorem mem_members {s : ObjectSet} {o : NodeId} : o ∈ s.members ↔ s.contains o = true := by
  rw [members, List.mem_toFinset, mem_toList]

theorem members_nonempty_iff {s : ObjectSet} : s.members.Nonempty ↔ s.isEmpty = false := by
  rw [← Bool.not_eq_true, isEmpty_iff]
  simp [Finset.Nonempty]

end ObjectSet

namespace DiffTable

variable {t : DiffTable} {n o : NodeId} {m : Std.TreeMap NodeId ObjectSet} {r : Bool × DiffTable}
  {A : Finset NodeId}

/-- All that a node points to. -/
def whole (t : DiffTable) (n : NodeId) : Finset NodeId := (t.get n).members

/-- The part that was not passed on yet. -/
def fresh (t : DiffTable) (n : NodeId) : Finset NodeId := (t.pendingOf n).members

/-- The part that was passed on. -/
def spread (t : DiffTable) (n : NodeId) : Finset NodeId := (t.settledOf n).members

@[simp]
theorem mem_whole : o ∈ t.whole n ↔ t.Has n o := ObjectSet.mem_members

@[simp]
theorem mem_fresh : o ∈ t.fresh n ↔ t.Owes n o := ObjectSet.mem_members

@[simp]
theorem mem_spread : o ∈ t.spread n ↔ t.Passed n o := ObjectSet.mem_members

theorem whole_eq (t : DiffTable) (n : NodeId) : t.whole n = t.spread n ∪ t.fresh n := by
  ext o
  rw [Finset.mem_union, mem_whole, mem_spread, mem_fresh, has_iff]

/-- The table that one part of the data is kept in has a non-empty set under `n`. -/
private def Lists (m : Std.TreeMap NodeId ObjectSet) (n : NodeId) : Prop :=
  ∃ s, m[n]? = some s ∧ s.isEmpty = false

private theorem lists_iff :
    n ∈ (m.toList.filter fun entry => !entry.2.isEmpty).map (·.1) ↔ Lists m n := by
  simp only [List.mem_map, List.mem_filter, Prod.exists, Bool.not_eq_true',
    Std.TreeMap.mem_toList_iff_getElem?_eq_some, Lists]
  constructor
  · rintro ⟨k, s, h, rfl⟩
    exact ⟨s, h⟩
  · rintro ⟨s, h⟩
    exact ⟨n, s, h, rfl⟩

private theorem lists_iff_nonempty {c : Collection} :
    Lists m n ↔ ((m[n]?).getD c.empty).members.Nonempty := by
  rw [ObjectSet.members_nonempty_iff, Lists]
  cases m[n]? with
  | none =>
    have hempty : c.empty.isEmpty = true := ObjectSet.isEmpty_iff.2 c.contains_empty
    simp [hempty]
  | some s => simp

/-- The keys are the nodes that point to something. -/
theorem mem_keys : n ∈ t.keys ↔ (t.whole n).Nonempty := by
  rw [keys, Std.TreeSet.mem_toList, mem_foldl_insert, List.mem_append, lists_iff, lists_iff,
    lists_iff_nonempty (c := t.collection), lists_iff_nonempty (c := t.collection), whole_eq,
    Finset.union_nonempty]
  simp [spread, fresh, settledOf, pendingOf]

theorem joinFrom_gains (t : DiffTable) (n source : NodeId) :
    t.Gains n (t.Has source) (t.joinFrom n source) := by
  unfold joinFrom
  split
  · next h => exact .of_has fun o ho => h ▸ ho
  · exact t.join_gains n (t.get source)

theorem joinPending_gains (t : DiffTable) (n source : NodeId) :
    t.Gains n (t.Owes source) (t.joinPending n source) := by
  unfold joinPending
  split
  · next h => exact .of_has fun o ho => has_iff.2 (.inr (h ▸ ho))
  · split
    · next s hs =>
      have hpending : t.pendingOf source = s := by rw [pendingOf, hs, Option.getD_some]
      have howes : t.Owes source = fun o => s.contains o = true := by
        funext o
        rw [Owes, hpending]
      rw [howes]
      exact t.join_gains n s
    · next hs =>
      refine .of_has fun o ho => ?_
      simp [Owes, pendingOf, hs] at ho

/-- No object is in both parts. -/
def Split (t : DiffTable) : Prop := ∀ n, Disjoint (t.fresh n) (t.spread n)

theorem split_iff : t.Split ↔ ∀ n o, t.Owes n o → ¬ t.Passed n o := by
  simp only [Split, Finset.disjoint_left, mem_fresh, mem_spread]

theorem split_empty (c : Collection) : (empty c).Split := by
  rw [split_iff]
  intro n o ho
  simp [Owes, pendingOf, empty] at ho

theorem Gains.split {P : NodeId → Prop} (ht : t.Split) (h : t.Gains n P r) : r.2.Split := by
  rw [split_iff] at ht ⊢
  intro m o howes hpassed
  rw [h.passed] at hpassed
  rcases (h.owes m o).1 howes with howes | ⟨rfl, -, hnew⟩
  · exact ht m o howes hpassed
  · exact hnew hpassed

theorem Split.flush (ht : t.Split) (n : NodeId) : (t.flush n).Split := by
  rw [split_iff] at ht ⊢
  intro m o howes hpassed
  obtain ⟨howes, hne⟩ := owes_flush.1 howes
  rcases passed_flush.1 hpassed with hpassed | ⟨rfl, -⟩
  · exact ht m o howes hpassed
  · exact hne rfl

theorem whole_flush (t : DiffTable) (n : NodeId) : (t.flush n).whole = t.whole := by
  funext m
  ext o
  rw [mem_whole, mem_whole, has_flush]

theorem fresh_flush (t : DiffTable) (n : NodeId) : (t.flush n).fresh n = ∅ := by
  ext o
  simp [owes_flush]

/-- An addition to one set, as seen from all whole sets. -/
theorem Gains.whole_eq_update (h : t.Gains n (· ∈ A) r) :
    r.2.whole = Function.update t.whole n (t.whole n ∪ A) := by
  funext m
  ext o
  rw [mem_whole, h.has]
  by_cases hm : m = n
  · subst hm
    simp
  · simp [hm]

theorem Gains.flag_iff (h : t.Gains n (· ∈ A) r) : r.1 = true ↔ t.whole n ⊂ r.2.whole n := by
  rw [h.whole_eq_update, Function.update_self, h.grew, Finset.ssubset_iff_subset_ne, ne_comm,
    Ne, Finset.union_eq_left, Finset.not_subset]
  simp

end DiffTable

/-- An operation on points-to data; the first node is the one whose set it changes. -/
inductive TableChange where
  | add (n object : NodeId)
  | join (n : NodeId) (s : ObjectSet)
  | joinFrom (n source : NodeId)
  | joinPending (n source : NodeId)
  | flush (n : NodeId)

namespace TableChange

open DiffTable (Gains Split)

variable {t : DiffTable}

def target : TableChange → NodeId
  | .add n _ | .join n _ | .joinFrom n _ | .joinPending n _ | .flush n => n

/-- The flag of an operation and the data after it. -/
def apply (t : DiffTable) : TableChange → Bool × DiffTable
  | .add n o => t.add n o
  | .join n s => t.join n s
  | .joinFrom n source => t.joinFrom n source
  | .joinPending n source => t.joinPending n source
  | .flush n => (false, t.flush n)

/-- The objects that an operation is to add. -/
def given (t : DiffTable) : TableChange → Finset NodeId
  | .add _ o => {o}
  | .join _ s => s.members
  | .joinFrom _ source => t.whole source
  | .joinPending _ source => t.fresh source
  | .flush _ => ∅

/-- The data after some operations. -/
def run (t : DiffTable) (ops : List TableChange) : DiffTable :=
  ops.foldl (fun t op => (op.apply t).2) t

/-- What an operation does to the whole sets, and what its flag tells. -/
structure Refines (t : DiffTable) (op : TableChange) : Prop where
  split : (op.apply t).2.Split
  whole : (op.apply t).2.whole =
    Function.update t.whole op.target (t.whole op.target ∪ op.given t)
  flag : (op.apply t).1 = true ↔ t.whole op.target ⊂ (op.apply t).2.whole op.target

theorem Refines.of_gains {op : TableChange} (ht : t.Split)
    (h : t.Gains op.target (· ∈ op.given t) (op.apply t)) : op.Refines t where
  split := h.split ht
  whole := h.whole_eq_update
  flag := h.flag_iff

theorem refines_flush (ht : t.Split) (n : NodeId) : (flush n).Refines t where
  split := ht.flush n
  whole := by
    rw [given, Finset.union_empty, Function.update_eq_self]
    exact t.whole_flush n
  flag := by
    rw [apply, t.whole_flush n]
    simp

theorem refines_apply (ht : t.Split) (op : TableChange) : op.Refines t := by
  cases op with
  | add n o => exact .of_gains ht (by simpa [target, given, apply] using t.add_gains n o)
  | join n s => exact .of_gains ht (by simpa [target, given, apply] using t.join_gains n s)
  | joinFrom n source =>
    exact .of_gains ht (by simpa [target, given, apply] using t.joinFrom_gains n source)
  | joinPending n source =>
    exact .of_gains ht (by simpa [target, given, apply] using t.joinPending_gains n source)
  | flush n => exact refines_flush ht n

theorem split_run (ht : t.Split) (ops : List TableChange) : (run t ops).Split := by
  induction ops generalizing t with
  | nil => exact ht
  | cons op ops ih => exact ih (refines_apply ht op).split

end TableChange

/-- After any operations on new data the two parts of every set are disjoint. The next operation joins
the set of its target with what it is given and leaves all other sets alone, and its flag tells
whether the set grew. A flush changes no set and leaves nothing to pass on. The keys are the nodes
with a set that is not empty. -/
theorem TableChange.refines_sets (c : Collection) (ops : List TableChange) :
    let t := run (.empty c) ops
    (∀ n, t.whole n = t.spread n ∪ t.fresh n ∧ Disjoint (t.fresh n) (t.spread n)) ∧
      (∀ op : TableChange,
        (op.apply t).2.whole op.target = t.whole op.target ∪ op.given t ∧
          (∀ n, n ≠ op.target → (op.apply t).2.whole n = t.whole n) ∧
          ((op.apply t).1 = true ↔ t.whole op.target ⊂ (op.apply t).2.whole op.target)) ∧
      (∀ n m, (t.flush n).whole m = t.whole m ∧ (t.flush n).fresh n = ∅) ∧
      ∀ n, n ∈ t.keys ↔ (t.whole n).Nonempty := by
  intro t
  have hsplit : t.Split := split_run (DiffTable.split_empty c) ops
  refine ⟨fun n => ⟨t.whole_eq n, hsplit n⟩, fun op => ?_, fun n m => ?_, fun n => t.mem_keys⟩
  · obtain ⟨-, hwhole, hflag⟩ := refines_apply hsplit op
    refine ⟨?_, fun n hn => ?_, hflag⟩
    · rw [hwhole, Function.update_self]
    · rw [hwhole, Function.update_of_ne hn]
  · exact ⟨congrFun (t.whole_flush n) m, t.fresh_flush n⟩

end PointsTo
