import Mathlib.Data.Finset.Card
import Mathlib.Data.Finset.SDiff
import Mathlib.Logic.Function.Basic
import PointsTo.Proofs.Sets

/-! Both representations of object sets implement finite sets, also where one operation has operands
of both. -/
namespace PointsTo

namespace ObjectSet

/-- What a set says of itself is true of the finite set `A`. -/
structure Represents (s : ObjectSet) (A : Finset NodeId) : Prop where
  contains : ∀ n, s.contains n = true ↔ n ∈ A
  isEmpty : s.isEmpty = true ↔ A = ∅
  size : s.size = A.card
  /-- Whatever the order, each element is listed once. -/
  enumerate : ∀ c : Collection, (c.enumerate s).Nodup ∧ (c.enumerate s).toFinset = A
  /-- Bits are listed in ascending order. -/
  ascending : ∀ bits, s = .dense bits →
    bits.toList.Pairwise (· < ·) ∧ ∀ i, i ∈ bits.toList ↔ (⟨i⟩ : NodeId) ∈ A

variable {s t : ObjectSet} {A B : Finset NodeId}

theorem nodup_toList (s : ObjectSet) : s.toList.Nodup := by
  cases s with
  | dense bits =>
    have hinj : Function.Injective (Ref.mk : Nat → NodeId) := fun _ _ h => congrArg Ref.index h
    exact (bits.pairwise_toList.imp Nat.ne_of_lt).map _ fun _ _ => hinj.ne
  | sparse elements =>
    refine elements.distinct_toList.imp fun h heq => h ?_
    rw [heq]
    exact Std.ReflCmp.compare_self

theorem length_toList (s : ObjectSet) : s.toList.length = s.size := by
  cases s with
  | dense bits => exact (List.length_map ..).trans bits.length_toList
  | sparse elements => exact elements.length_toList

theorem nodup_enumerate (c : Collection) (s : ObjectSet) : (c.enumerate s).Nodup := by
  unfold Collection.enumerate
  split
  · next order elements => exact (order.perm _).nodup_iff.2 (nodup_toList (.sparse elements))
  · exact nodup_toList _

/-- The members decide everything else. -/
theorem Represents.of_contains (h : ∀ n, s.contains n = true ↔ n ∈ A) : s.Represents A where
  contains := h
  isEmpty := by
    rw [isEmpty_iff, Finset.eq_empty_iff_forall_notMem]
    simp only [← h, Bool.not_eq_true]
  size := by
    have hlist : s.toList.toFinset = A := by
      ext n
      rw [List.mem_toFinset, mem_toList, h]
    rw [← hlist, List.toFinset_card_of_nodup s.nodup_toList, length_toList]
  enumerate c := by
    refine ⟨nodup_enumerate c s, ?_⟩
    ext n
    rw [List.mem_toFinset, Collection.mem_enumerate, h]
  ascending bits hs := by
    subst hs
    exact ⟨bits.pairwise_toList, fun i => BitSet.mem_toList.trans (h ⟨i⟩)⟩

theorem Represents.includes_iff (hs : s.Represents A) (ht : t.Represents B) :
    s.includes t = true ↔ B ⊆ A := by
  rw [ObjectSet.includes_iff, Finset.subset_iff]
  simp only [hs.contains, ht.contains]

theorem represents_empty (c : Collection) : c.empty.Represents ∅ :=
  .of_contains fun n => by simp

theorem isDense_insert (s : ObjectSet) (n : NodeId) : (s.insert n).2.isDense = s.isDense := by
  cases s <;> rfl

theorem isDense_remove (s : ObjectSet) (n : NodeId) : (s.remove n).2.isDense = s.isDense := by
  cases s <;> rfl

theorem isDense_each {f : ObjectSet → NodeId → Bool × ObjectSet}
    (hf : ∀ s n, (f s n).2.isDense = s.isDense) (s : ObjectSet) (l : List NodeId) :
    (each f s l).2.isDense = s.isDense := by
  suffices h : ∀ r : Bool × ObjectSet,
      (l.foldl (fun r n => (f r.2 n).map (r.1 || ·) id) r).2.isDense = r.2.isDense from h (false, s)
  intro r
  induction l generalizing r with
  | nil => rfl
  | cons n l ih =>
    rw [List.foldl_cons, ih]
    exact hf r.2 n

theorem isDense_union (s t : ObjectSet) : (s.union t).2.isDense = s.isDense := by
  unfold union
  split
  · rfl
  · rfl
  · exact isDense_each isDense_insert _ _

theorem isDense_subtract (s t : ObjectSet) : (s.subtract t).2.isDense = s.isDense := by
  unfold subtract
  split
  · rfl
  · rfl
  · exact isDense_each isDense_remove _ _

end ObjectSet

/-- A change of one set of a family, whose operands are elements or other sets of the family. -/
inductive FamilyChange where
  | insert (i : Nat) (n : NodeId)
  | remove (i : Nat) (n : NodeId)
  | union (i j : Nat)
  | subtract (i j : Nat)
  | clear (i : Nat)

namespace FamilyChange

/-- The set that is changed. -/
def target : FamilyChange → Nat
  | .insert i _ | .remove i _ | .union i _ | .subtract i _ | .clear i => i

/-- The flag of an operation, where it has one, and the target after it. -/
def result (sets : Nat → ObjectSet) : FamilyChange → Option Bool × ObjectSet
  | .insert i n => ((sets i).insert n).map some id
  | .remove i n => ((sets i).remove n).map some id
  | .union i j => ((sets i).union (sets j)).map some id
  | .subtract i j => ((sets i).subtract (sets j)).map some id
  | .clear i => (none, (sets i).emptied)

def apply (sets : Nat → ObjectSet) (op : FamilyChange) : Nat → ObjectSet :=
  Function.update sets op.target (op.result sets).2

/-- The same operation on finite sets. -/
def meaning (A : Nat → Finset NodeId) : FamilyChange → Finset NodeId
  | .insert i n => Insert.insert n (A i)
  | .remove i n => (A i).erase n
  | .union i j => A i ∪ A j
  | .subtract i j => A i \ A j
  | .clear _ => ∅

/-- What an operation has to report: whether it makes a difference. Clearing reports nothing. -/
def report (A : Nat → Finset NodeId) : FamilyChange → Option Bool
  | .clear _ => none
  | op => some (op.meaning A ≠ A op.target)

def applyTo (A : Nat → Finset NodeId) (op : FamilyChange) : Nat → Finset NodeId :=
  Function.update A op.target (op.meaning A)

variable {sets : Nat → ObjectSet} {A : Nat → Finset NodeId}

theorem represents_result (h : ∀ i, (sets i).Represents (A i)) (op : FamilyChange) :
    (op.result sets).2.Represents (op.meaning A) := by
  refine .of_contains fun n => ?_
  cases op with
  | insert i m =>
    simp only [result, Prod.map_snd, id, meaning, ObjectSet.contains_insert, Bool.or_eq_true,
      decide_eq_true_eq, (h i).contains, Finset.mem_insert]
    rw [or_comm, eq_comm]
  | remove i m =>
    simp only [result, Prod.map_snd, id, meaning, ObjectSet.contains_remove, Bool.and_eq_true,
      Bool.not_eq_true', decide_eq_false_iff_not, (h i).contains, Finset.mem_erase, ne_eq]
    rw [and_comm, eq_comm]
  | union i j =>
    simp only [result, Prod.map_snd, id, meaning, ObjectSet.contains_union, (h i).contains,
      (h j).contains, Finset.mem_union]
  | subtract i j =>
    simp only [result, Prod.map_snd, id, meaning, ObjectSet.contains_subtract,
      ← Bool.not_eq_true, (h i).contains, (h j).contains, Finset.mem_sdiff]
  | clear i => simp [result, meaning]

theorem isDense_result (sets : Nat → ObjectSet) (op : FamilyChange) :
    (op.result sets).2.isDense = (sets op.target).isDense := by
  cases op with
  | insert i n => exact ObjectSet.isDense_insert _ n
  | remove i n => exact ObjectSet.isDense_remove _ n
  | union i j => exact ObjectSet.isDense_union _ _
  | subtract i j => exact ObjectSet.isDense_subtract _ _
  | clear i => cases h : sets i <;> simp [result, target, ObjectSet.emptied, ObjectSet.isDense, h]

/-- The flags that the operations compute are the ones they have to report. -/
theorem flag_result (h : ∀ i, (sets i).Represents (A i)) (op : FamilyChange) :
    (op.result sets).1 = op.report A := by
  have hsome : ∀ {b : Bool} {P : Prop} [Decidable P], (b = true ↔ P) → some b = some (decide P) :=
    fun hb => congrArg some (Bool.eq_iff_iff.2 (hb.trans decide_eq_true_iff.symm))
  cases op with
  | insert i n =>
    have hflag : ((sets i).insert n).1 = true ↔ Insert.insert n (A i) ≠ A i := by
      rw [ObjectSet.flag_insert, Bool.not_eq_true', ← Bool.not_eq_true, (h i).contains, Ne,
        Finset.insert_eq_self]
    exact hsome hflag
  | remove i n =>
    have hflag : ((sets i).remove n).1 = true ↔ (A i).erase n ≠ A i := by
      rw [ObjectSet.flag_remove, (h i).contains, Ne, Finset.erase_eq_self, not_not]
    exact hsome hflag
  | union i j =>
    have hflag : ((sets i).union (sets j)).1 = true ↔ A i ∪ A j ≠ A i := by
      rw [ObjectSet.flag_union, Ne, Finset.union_eq_left, Finset.not_subset]
      simp only [← Bool.not_eq_true, (h i).contains, (h j).contains, and_comm]
    exact hsome hflag
  | subtract i j =>
    have hflag : ((sets i).subtract (sets j)).1 = true ↔ A i \ A j ≠ A i := by
      rw [ObjectSet.flag_subtract, Ne, sdiff_eq_left, Finset.not_disjoint_iff]
      simp only [(h i).contains, (h j).contains]
    exact hsome hflag
  | clear i => rfl

/-- One operation keeps every set in line with its finite set, and in its representation. -/
theorem apply_represents (h : ∀ i, (sets i).Represents (A i)) (op : FamilyChange) (i : Nat) :
    (op.apply sets i).Represents (op.applyTo A i) ∧
      (op.apply sets i).isDense = (sets i).isDense := by
  by_cases hi : i = op.target
  · subst hi
    simp only [apply, applyTo, Function.update_self]
    exact ⟨represents_result h op, isDense_result sets op⟩
  · rw [apply, applyTo, Function.update_of_ne hi, Function.update_of_ne hi]
    exact ⟨h i, rfl⟩

theorem foldl_represents (h : ∀ i, (sets i).Represents (A i)) (ops : List FamilyChange) (i : Nat) :
    (ops.foldl apply sets i).Represents (ops.foldl applyTo A i) ∧
      (ops.foldl apply sets i).isDense = (sets i).isDense := by
  induction ops generalizing sets A with
  | nil => exact ⟨h i, rfl⟩
  | cons op ops ih =>
    rw [List.foldl_cons, List.foldl_cons]
    obtain ⟨hrep, hdense⟩ := ih (fun j => (apply_represents h op j).1)
    exact ⟨hrep, hdense.trans (apply_represents h op i).2⟩

end FamilyChange

/-- After any operations on sets that start out empty, each in a representation of its own, every set
answers as the finite set that the same operations make. The next operation makes the target the
finite set that it stands for, and reports exactly whether that makes a difference. -/
theorem FamilyChange.implements_finsets (c : Nat → Collection) (ops : List FamilyChange) :
    let sets := ops.foldl apply fun i => (c i).empty
    let A := ops.foldl applyTo fun _ => ∅
    (∀ i, (sets i).Represents (A i)) ∧
      (∀ i, (sets i).isDense = (c i).empty.isDense) ∧
      (∀ i j, (sets i).includes (sets j) = true ↔ A j ⊆ A i) ∧
      ∀ op : FamilyChange, (op.result sets).1 = op.report A := by
  intro sets A
  have h := fun i => foldl_represents (fun j => ObjectSet.represents_empty (c j)) ops i
  exact ⟨fun i => (h i).1, fun i => (h i).2, fun i j => (h i).1.includes_iff (h j).1,
    flag_result fun i => (h i).1⟩

end PointsTo
