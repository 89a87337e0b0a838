import PointsTo.Points.DiffTable
import PointsTo.Proofs.Lookup
import PointsTo.Proofs.Points.Blocks

/-! The members of object sets, in either representation and in mixed operations. -/
namespace PointsTo.ObjectSet

variable {s t : ObjectSet}

theorem mem_toList {n : NodeId} : n ∈ s.toList ↔ s.contains n = true := by
  cases s with
  | dense bits =>
    simp only [toList, contains, List.mem_map, BitSet.mem_toList]
    constructor
    · rintro ⟨i, hi, rfl⟩
      exact hi
    · intro h
      exact ⟨n.index, h, rfl⟩
  | sparse elements =>
    simp only [toList, contains, Std.TreeSet.mem_toList, Std.TreeSet.contains_iff_mem]

private theorem compare_beq_eq (a n : NodeId) : (compare a n == .eq) = decide (a = n) := by
  rw [Bool.eq_iff_iff, beq_iff_eq, decide_eq_true_eq, Std.LawfulEqCmp.compare_eq_iff_eq]

@[simp]
theorem contains_insert (s : ObjectSet) (a n : NodeId) :
    (s.insert a).2.contains n = (s.contains n || decide (a = n)) := by
  cases s with
  | dense bits => simp [insert, contains, BitSet.contains_insert, Ref.index_inj]
  | sparse elements =>
    rw [insert, contains, contains, Std.TreeSet.contains_insert, compare_beq_eq, Bool.or_comm]

@[simp]
theorem flag_insert (s : ObjectSet) (a : NodeId) : (s.insert a).1 = !s.contains a := by
  cases s with
  | dense bits => exact bits.flag_insert a.index
  | sparse elements => rfl

@[simp]
theorem contains_remove (s : ObjectSet) (a n : NodeId) :
    (s.remove a).2.contains n = (s.contains n && !decide (a = n)) := by
  cases s with
  | dense bits => simp [remove, contains, BitSet.contains_remove, Ref.index_inj]
  | sparse elements =>
    rw [remove, contains, contains, Std.TreeSet.contains_erase, Bool.and_comm]
    congr 1
    by_cases h : a = n
    · simp [h]
    · have h' : compare a n ≠ .eq := fun hc => h (Std.LawfulEqOrd.eq_of_compare hc)
      simp [h, h']

@[simp]
theorem flag_remove (s : ObjectSet) (a : NodeId) : (s.remove a).1 = s.contains a := by
  cases s with
  | dense bits => exact bits.flag_remove a.index
  | sparse elements => rfl

section Each

variable {f : ObjectSet → NodeId → Bool × ObjectSet} {hit : ObjectSet → NodeId → Bool}

private theorem foldl_each (hflag : ∀ s a, (f s a).1 = hit s a)
    (hhit : ∀ s a n, hit (f s a).2 n = (hit s n && !decide (a = n))) (l : List NodeId)
    (r : Bool × ObjectSet) :
    let r' := l.foldl (fun r n => (f r.2 n).map (r.1 || ·) id) r
    (r'.1 = true ↔ r.1 = true ∨ ∃ n ∈ l, hit r.2 n = true) ∧
      ∀ n, hit r'.2 n = true ↔ hit r.2 n = true ∧ n ∉ l := by
  induction l generalizing r with
  | nil => simp
  | cons a l ih =>
    obtain ⟨hflag', hhit'⟩ := ih ((f r.2 a).map (r.1 || ·) id)
    simp only [Prod.map_fst, Prod.map_snd, id, hflag, hhit] at hflag' hhit'
    refine ⟨hflag'.trans ?_, fun n => (hhit' n).trans ?_⟩
    · simp only [Bool.or_eq_true, Bool.and_eq_true, Bool.not_eq_true', decide_eq_false_iff_not,
        List.mem_cons, or_assoc]
      refine or_congr_right ⟨?_, ?_⟩
      · rintro (h | ⟨n, hn, h, -⟩)
        · exact ⟨a, .inl rfl, h⟩
        · exact ⟨n, .inr hn, h⟩
      · rintro ⟨n, rfl | hn, h⟩
        · exact .inl h
        · by_cases han : a = n
          · exact .inl (han ▸ h)
          · exact .inr ⟨n, hn, h, han⟩
    · simp only [Bool.and_eq_true, Bool.not_eq_true', decide_eq_false_iff_not, List.mem_cons,
        not_or, and_assoc, @eq_comm _ a n]

/-- An operation that makes a difference exactly for the elements that it hits, one by one. -/
private theorem each_spec (hit : ObjectSet → NodeId → Bool) (hflag : ∀ s a, (f s a).1 = hit s a)
    (hhit : ∀ s a n, hit (f s a).2 n = (hit s n && !decide (a = n))) (s : ObjectSet)
    (l : List NodeId) : ((each f s l).1 = true ↔ ∃ n ∈ l, hit s n = true) ∧
      ∀ n, hit (each f s l).2 n = true ↔ hit s n = true ∧ n ∉ l := by
  simpa [each] using foldl_each hflag hhit l (false, s)

end Each

/-- A set with more elements is larger if one of them is new. -/
private theorem size_foldl_insert (l : List NodeId) (a : Std.TreeSet NodeId) :
    a.size ≤ (l.foldl (·.insert ·) a).size ∧
      ((l.foldl (·.insert ·) a).size ≠ a.size ↔ ∃ n ∈ l, a.contains n = false) := by
  induction l generalizing a with
  | nil => simp
  | cons x l ih =>
    obtain ⟨hle, hne⟩ := ih (a.insert x)
    rw [Std.TreeSet.size_insert] at hle hne
    rw [List.foldl_cons]
    cases hx : a.contains x with
    | false =>
      rw [hx, if_neg (by decide)] at hle
      exact ⟨by omega, fun _ => ⟨x, .head _, hx⟩, fun _ => by omega⟩
    | true =>
      rw [hx, if_pos rfl] at hle hne
      refine ⟨hle, hne.trans ⟨?_, ?_⟩⟩
      · rintro ⟨n, hn, h⟩
        rw [Std.TreeSet.contains_insert, Bool.or_eq_false_iff] at h
        exact ⟨n, .tail _ hn, h.2⟩
      · rintro ⟨n, hn, h⟩
        rcases List.mem_cons.1 hn with rfl | hn
        · rw [hx] at h
          cases h
        · refine ⟨n, hn, ?_⟩
          have hxn : x ≠ n := by
            rintro rfl
            rw [hx] at h
            cases h
          rw [Std.TreeSet.contains_insert, compare_beq_eq, decide_eq_false hxn, h, Bool.or_false]

/-- What a union has, and what its flag tells. -/
private theorem union_spec (s t : ObjectSet) :
    ((s.union t).1 = true ↔ ∃ n, s.contains n = false ∧ t.contains n = true) ∧
      ∀ n, (s.union t).2.contains n = true ↔ s.contains n = true ∨ t.contains n = true := by
  have hmixed := each_spec (fun s n => !s.contains n) flag_insert
    (fun s a n => by rw [contains_insert, Bool.not_or]) s t.toList
  unfold union
  split
  · next a b =>
    refine ⟨BitSet.flag_union.trans ⟨?_, ?_⟩, fun n => ?_⟩
    · rintro ⟨i, h⟩
      exact ⟨⟨i⟩, h⟩
    · rintro ⟨n, h⟩
      exact ⟨n.index, h⟩
    · simp [contains, BitSet.contains_union]
  · next a b =>
    refine ⟨bne_iff_ne.trans ((size_foldl_insert b.toList a).2.trans ?_), fun n => ?_⟩
    · simp only [contains, Std.TreeSet.mem_toList, Std.TreeSet.contains_iff_mem, and_comm]
    · simp only [contains, Std.TreeSet.contains_iff_mem, mem_foldl_insert, Std.TreeSet.mem_toList]
  · refine ⟨hmixed.1.trans ?_, fun n => ?_⟩
    · simp only [mem_toList, Bool.not_eq_true', and_comm]
    · have hn := not_congr (hmixed.2 n)
      simpa [mem_toList, or_iff_not_imp_left] using hn

/-- What a difference has, and what its flag tells. -/
private theorem subtract_spec (s t : ObjectSet) :
    ((s.subtract t).1 = true ↔ ∃ n, s.contains n = true ∧ t.contains n = true) ∧
      ∀ n, (s.subtract t).2.contains n = true ↔ s.contains n = true ∧ t.contains n = false := by
  have hmixed := each_spec contains flag_remove contains_remove s t.toList
  unfold subtract
  split
  · next a b =>
    refine ⟨BitSet.flag_subtract.trans ⟨?_, ?_⟩, fun n => ?_⟩
    · rintro ⟨i, h⟩
      exact ⟨⟨i⟩, h⟩
    · rintro ⟨n, h⟩
      exact ⟨n.index, h⟩
    · simp [contains, BitSet.contains_subtract]
  · next a b =>
    have hlist : (a.filter (!b.contains ·)).toList = a.toList.filter (!b.contains ·) :=
      Std.TreeSet.toList_filter
    refine ⟨bne_iff_ne.trans ?_, fun n => ?_⟩
    · rw [← Std.TreeSet.length_toList, ← Std.TreeSet.length_toList, hlist, Ne,
        List.length_filter_eq_length_iff]
      simp [contains]
    · rw [← mem_toList (s := .sparse _), toList, hlist, List.mem_filter]
      simp [contains]
  · refine ⟨hmixed.1.trans ?_, fun n => (hmixed.2 n).trans ?_⟩
    · simp only [mem_toList, and_comm]
    · rw [mem_toList, Bool.not_eq_true]

theorem contains_union {n : NodeId} :
    (s.union t).2.contains n = true ↔ s.contains n = true ∨ t.contains n = true :=
  (union_spec s t).2 n

theorem contains_subtract {n : NodeId} :
    (s.subtract t).2.contains n = true ↔ s.contains n = true ∧ t.contains n = false :=
  (subtract_spec s t).2 n

theorem flag_union : (s.union t).1 = true ↔ ∃ n, s.contains n = false ∧ t.contains n = true :=
  (union_spec s t).1

theorem flag_subtract : (s.subtract t).1 = true ↔ ∃ n, s.contains n = true ∧ t.contains n = true :=
  (subtract_spec s t).1

theorem isEmpty_iff : s.isEmpty = true ↔ ∀ n, s.contains n = false := by
  cases s with
  | dense bits =>
    exact BitSet.isEmpty_iff.trans ⟨fun h n => h n.index, fun h i => h ⟨i⟩⟩
  | sparse elements =>
    rw [isEmpty, ← Bool.not_eq_false, Std.TreeSet.isEmpty_eq_false_iff_exists_contains_eq_true]
    simp only [contains, not_exists, Bool.not_eq_true]

theorem includes_iff : s.includes t = true ↔ ∀ n, t.contains n = true → s.contains n = true := by
  unfold includes
  split
  · next a b => exact BitSet.includes_iff.trans ⟨fun h n => h n.index, fun h i => h ⟨i⟩⟩
  · simp [mem_toList]

@[simp]
theorem contains_emptied (s : ObjectSet) (n : NodeId) : s.emptied.contains n = false := by
  cases s with
  | dense bits => exact BitSet.contains_empty n.index
  | sparse elements => exact Std.TreeSet.contains_emptyc

end PointsTo.ObjectSet

namespace PointsTo.Collection

@[simp]
theorem contains_empty (c : Collection) (n : NodeId) : c.empty.contains n = false := by
  cases c with
  | dense => exact BitSet.contains_empty n.index
  | sparse order => exact Std.TreeSet.contains_emptyc

/-- Whatever the order, exactly the members are listed. -/
theorem mem_enumerate {c : Collection} {s : ObjectSet} {n : NodeId} :
    n ∈ c.enumerate s ↔ s.contains n = true := by
  unfold enumerate
  split
  · next order elements =>
    rw [(order.perm _).mem_iff]
    exact ObjectSet.mem_toList (s := .sparse elements)
  · exact ObjectSet.mem_toList

end PointsTo.Collection

namespace PointsTo.DiffTable

variable {t : DiffTable} {n o m : NodeId} {P : NodeId → Prop}

/-- Whether a node points to an object. -/
def Has (t : DiffTable) (n o : NodeId) : Prop := (t.get n).contains o = true

/-- Whether a node still has to pass on an object. -/
def Owes (t : DiffTable) (n o : NodeId) : Prop := (t.pendingOf n).contains o = true

/-- Whether a node has passed on an object. -/
def Passed (t : DiffTable) (n o : NodeId) : Prop := (t.settledOf n).contains o = true

instance (t : DiffTable) (n o : NodeId) : Decidable (t.Has n o) :=
  inferInstanceAs (Decidable (_ = true))

instance (t : DiffTable) (n o : NodeId) : Decidable (t.Passed n o) :=
  inferInstanceAs (Decidable (_ = true))

theorem has_iff : t.Has n o ↔ t.Passed n o ∨ t.Owes n o := by
  simp only [Has, get, ObjectSet.contains_union, Collection.contains_empty, Passed, Owes]
  simp

theorem hasPending_iff : t.hasPending n = true ↔ ∃ o, t.Owes n o := by
  rw [hasPending, Bool.not_eq_true', ← Bool.not_eq_true, ObjectSet.isEmpty_iff]
  simp [Owes]

/-- The result of adding the objects `P` to the set of `n`. -/
structure Gains (t : DiffTable) (n : NodeId) (P : NodeId → Prop) (r : Bool × DiffTable) : Prop where
  passed : ∀ m o, r.2.Passed m o ↔ t.Passed m o
  owes : ∀ m o, r.2.Owes m o ↔ t.Owes m o ∨ (m = n ∧ P o ∧ ¬ t.Passed n o)
  grew : r.1 = true ↔ ∃ o, P o ∧ ¬ t.Has n o
  collection : r.2.collection = t.collection

theorem Gains.has {r : Bool × DiffTable} (h : t.Gains n P r) (m o : NodeId) :
    r.2.Has m o ↔ t.Has m o ∨ (m = n ∧ P o) := by
  rw [has_iff, has_iff, h.passed, h.owes]
  by_cases hp : t.Passed n o
  · constructor
    · rintro (hm | hm | ⟨rfl, ho, -⟩)
      · exact .inl (.inl hm)
      · exact .inl (.inr hm)
      · exact .inr ⟨rfl, ho⟩
    · rintro (hm | ⟨rfl, -⟩)
      · exact hm.elim .inl (fun hm => .inr (.inl hm))
      · exact .inl hp
  · simp [hp, or_assoc]

/-- Nothing is gained from objects that are there already. -/
theorem Gains.of_has (h : ∀ o, P o → t.Has n o) : t.Gains n P (false, t) where
  passed _ _ := .rfl
  owes m o := by
    constructor
    · exact .inl
    · rintro (hm | ⟨rfl, ho, hn⟩)
      · exact hm
      · exact (has_iff.1 (h o ho)).resolve_left hn
  grew := by
    constructor
    · intro hf
      exact Bool.noConfusion hf
    · rintro ⟨o, ho, hn⟩
      exact absurd (h o ho) hn
  collection := rfl

private theorem pendingOf_insert (t : DiffTable) (n m : NodeId) (s : ObjectSet) :
    ({ t with pending := t.pending.insert n s } : DiffTable).pendingOf m =
      if n = m then s else t.pendingOf m := by
  simp only [pendingOf, getElem?_insert]
  split <;> rfl

private theorem settledOf_insert (t : DiffTable) (n m : NodeId) (s : ObjectSet) :
    ({ t with settled := t.settled.insert n s } : DiffTable).settledOf m =
      if n = m then s else t.settledOf m := by
  simp only [settledOf, getElem?_insert]
  split <;> rfl

/-- A change that adds objects which were not passed on yet is a gain. -/
private theorem change_gains {f : ObjectSet → Bool × ObjectSet}
    (hset : ∀ o, (f (t.pendingOf n)).2.contains o = true ↔
      t.Owes n o ∨ (P o ∧ ¬ t.Passed n o))
    (hflag : (f (t.pendingOf n)).1 = true ↔ ∃ o, P o ∧ ¬ t.Has n o) :
    t.Gains n P (t.change n f) where
  passed _ _ := .rfl
  owes m o := by
    simp only [change, Prod.map_snd, Owes, pendingOf_insert]
    by_cases h : n = m
    · subst h
      simpa [Owes] using hset o
    · simp [h, Ne.symm h]
  grew := hflag
  collection := rfl

theorem add_gains (t : DiffTable) (n object : NodeId) : t.Gains n (· = object) (t.add n object) := by
  unfold add
  split
  · next h =>
    exact .of_has fun o ho => has_iff.2 (.inl (ho ▸ h))
  · next h =>
    refine change_gains (fun o => ?_) ?_
    · rw [ObjectSet.contains_insert, Bool.or_eq_true, decide_eq_true_eq]
      constructor
      · rintro (ho | rfl)
        · exact .inl ho
        · exact .inr ⟨rfl, h⟩
      · rintro (ho | ⟨rfl, -⟩)
        · exact .inl ho
        · exact .inr rfl
    · simp only [ObjectSet.flag_insert, has_iff, not_or]
      constructor
      · intro hc
        exact ⟨object, rfl, h, by simpa [Owes] using hc⟩
      · rintro ⟨o, rfl, -, ho⟩
        simpa [Owes] using ho

theorem join_gains (t : DiffTable) (n : NodeId) (s : ObjectSet) :
    t.Gains n (s.contains · = true) (t.join n s) := by
  have hfresh : ∀ o, (s.subtract (t.settledOf n)).2.contains o = true ↔
      s.contains o = true ∧ ¬ t.Passed n o := by
    intro o
    rw [ObjectSet.contains_subtract, Passed, Bool.not_eq_true]
  simp only [join]
  split
  · next h =>
    rw [ObjectSet.isEmpty_iff] at h
    refine .of_has fun o ho => has_iff.2 (.inl (Decidable.by_contra fun hn => ?_))
    have := (hfresh o).2 ⟨ho, hn⟩
    rw [h o] at this
    exact Bool.noConfusion this
  · refine change_gains (fun o => ?_) ?_
    · rw [ObjectSet.contains_union, hfresh]
      rfl
    · rw [ObjectSet.flag_union]
      simp only [hfresh, has_iff, not_or, ← Bool.not_eq_true]
      constructor
      · rintro ⟨o, hw, ho, hp⟩
        exact ⟨o, ho, hp, hw⟩
      · rintro ⟨o, ho, hp, hw⟩
        exact ⟨o, hw, ho, hp⟩

theorem passed_flush : (t.flush n).Passed m o ↔ t.Passed m o ∨ (m = n ∧ t.Owes n o) := by
  unfold flush
  split
  · next h =>
    simp [Owes, pendingOf, h]
  · next s h =>
    have hs : t.pendingOf n = s := by simp [pendingOf, h]
    have : ({ t with
        settled := t.settled.insert n ((t.settledOf n).union s).2
        pending := t.pending.insert n s.emptied } : DiffTable).settledOf m =
        if n = m then ((t.settledOf n).union s).2 else t.settledOf m :=
      settledOf_insert t n m _
    simp only [Passed, Owes, this, hs]
    by_cases hm : n = m
    · subst hm
      simp [ObjectSet.contains_union]
    · simp [hm, Ne.symm hm]

theorem owes_flush : (t.flush n).Owes m o ↔ t.Owes m o ∧ m ≠ n := by
  unfold flush
  split
  · next h =>
    constructor
    · intro ho
      refine ⟨ho, ?_⟩
      rintro rfl
      simp [Owes, pendingOf, h] at ho
    · exact And.left
  · next s h =>
    have : ({ t with
        settled := t.settled.insert n ((t.settledOf n).union s).2
        pending := t.pending.insert n s.emptied } : DiffTable).pendingOf m =
        if n = m then s.emptied else t.pendingOf m :=
      pendingOf_insert t n m _
    simp only [Owes, this]
    by_cases hm : n = m
    · subst hm
      simp
    · simp [hm, Ne.symm hm]

theorem has_flush : (t.flush n).Has m o ↔ t.Has m o := by
  rw [has_iff, has_iff, passed_flush, owes_flush]
  by_cases hm : m = n
  · subst hm
    simp
  · simp [hm]

end PointsTo.DiffTable
