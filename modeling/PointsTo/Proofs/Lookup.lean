import PointsTo.Outcome
import PointsTo.Queue
import Std.Data.TreeMap
import Std.Data.TreeSet

/-! Look-ups in tables after an insertion, by equality of keys. -/
namespace PointsTo

section Tables

/-- There is only one empty table. -/
theorem eq_empty_of_isEmpty_map {α β : Type} [Ord α] {m : Std.TreeMap α β}
    (h : m.isEmpty = true) : m = ∅ := by
  obtain ⟨⟨tree, _⟩⟩ := m
  cases tree with
  | leaf => rfl
  | inner => cases h

theorem eq_empty_of_isEmpty {α : Type} [Ord α] {m : Std.TreeSet α} (h : m.isEmpty = true) :
    m = ∅ :=
  congrArg Std.TreeSet.mk (eq_empty_of_isEmpty_map h)

variable {α β : Type} [Ord α] [Std.TransOrd α]

theorem isEmpty_iff_forall_not_mem (m : Std.TreeSet α) : m.isEmpty = true ↔ ∀ k, k ∉ m := by
  rw [← Bool.not_eq_false, Std.TreeSet.isEmpty_eq_false_iff_exists_mem, not_exists]

variable [Std.LawfulEqOrd α]

theorem getElem?_insert [DecidableEq α] (m : Std.TreeMap α β) (k k' : α) (v : β) :
    (m.insert k v)[k']? = if k = k' then some v else m[k']? := by
  rw [Std.TreeMap.getElem?_insert]
  by_cases h : k = k'
  · simp [h]
  · have h' : compare k k' ≠ .eq := fun hc => h (Std.LawfulEqOrd.eq_of_compare hc)
    simp [h, h']

theorem mem_insert_map {m : Std.TreeMap α β} {k k' : α} {v : β} :
    k' ∈ m.insert k v ↔ k = k' ∨ k' ∈ m := by
  rw [Std.TreeMap.mem_insert, Std.LawfulEqCmp.compare_eq_iff_eq]

theorem mem_insert (m : Std.TreeSet α) (k k' : α) : k' ∈ m.insert k ↔ k = k' ∨ k' ∈ m := by
  rw [Std.TreeSet.mem_insert, Std.LawfulEqCmp.compare_eq_iff_eq]

/-- What holds of all entries still does after an insertion of one that it holds of. -/
theorem forall_insert_map [DecidableEq α] {m : Std.TreeMap α β} {k : α} {v : β} {R : α → β → Prop}
    (hm : ∀ k v, m[k]? = some v → R k v) (h : R k v) :
    ∀ k' v', (m.insert k v)[k']? = some v' → R k' v' := by
  intro k' v' hk
  rw [getElem?_insert] at hk
  split at hk
  · next heq =>
    cases heq
    cases hk
    exact h
  · exact hm k' v' hk

/-- A new key in front leaves what the others are found with. -/
theorem lookup_cons_of_eq_some {γ : Type} [BEq γ] [LawfulBEq γ] {l : List (γ × β)} {k k' : γ} {v v' : β}
    (hk : l.lookup k = none) (h : l.lookup k' = some v') : ((k, v) :: l).lookup k' = some v' := by
  have hne : k' ≠ k := by
    rintro rfl
    rw [hk] at h
    cases h
  simpa [List.lookup_cons, beq_eq_false_iff_ne.2 hne] using h

/-- What holds of all that is found and of the default holds of what a look-up gives. -/
theorem getD_of_forall {γ : Type} {x : Option γ} {d : γ} {R : γ → Prop} (hx : ∀ a, x = some a → R a)
    (hd : R d) : R (x.getD d) := by
  cases x with
  | none => exact hd
  | some a => exact hx a rfl

theorem forall_mem_insert {m : Std.TreeSet α} {k : α} {R : α → Prop} (hm : ∀ k ∈ m, R k) (h : R k) :
    ∀ k' ∈ m.insert k, R k' := by
  intro k' hk
  rcases (mem_insert _ _ _).1 hk with rfl | hk
  · exact h
  · exact hm k' hk

theorem mem_foldl_insert (l : List α) (m : Std.TreeSet α) (k : α) :
    k ∈ l.foldl (·.insert ·) m ↔ k ∈ m ∨ k ∈ l := by
  induction l generalizing m with
  | nil => simp
  | cons a l ih =>
    rw [List.foldl_cons, ih, mem_insert, List.mem_cons, or_comm (a := a = k), or_assoc,
      @eq_comm _ a k]

end Tables

theorem Ref.fetch_eq_ok_iff {t : Table} {α : Type} {r : Ref t} {xs : Array α} {x : α} :
    r.fetch xs = .ok x ↔ xs[r.index]? = some x := by
  unfold Ref.fetch
  cases xs[r.index]? with
  | none => simp
  | some y => simp

theorem getElem?_push_of_eq_some {α : Type} {xs : Array α} {i : Nat} {x y : α}
    (h : xs[i]? = some x) : (xs.push y)[i]? = some x := by
  have hi : i < xs.size := (Array.getElem?_eq_some_iff.1 h).1
  rw [Array.getElem?_push_lt hi, ← Array.getElem?_eq_getElem hi, h]

theorem mem_modify {α : Type} {xs : Array α} {i : Nat} {f : α → α} {x : α}
    (h : x ∈ xs.modify i f) : x ∈ xs ∨ ∃ y ∈ xs, x = f y := by
  obtain ⟨j, hj⟩ := Array.getElem?_of_mem h
  rw [Array.getElem?_modify] at hj
  split at hj
  · obtain ⟨y, hy, rfl⟩ := Option.map_eq_some_iff.1 hj
    exact .inr ⟨y, Array.mem_of_getElem? hy, rfl⟩
  · exact .inl (Array.mem_of_getElem? hj)

theorem Queue.isEmpty_iff {α : Type} {q : Queue α} : q.isEmpty = true ↔ q.toList = [] := by
  simp [Queue.isEmpty, Queue.toList]

end PointsTo
