import Std.Data.TreeMap

/-! Tables that give equal entries one position. -/
namespace PointsTo

/-- Entries in the order in which they came, and a map from every entry to its position. -/
structure Interner (α : Type) [Ord α] where
  entries : Array α
  positions : Std.TreeMap α Nat
  positions_iff : ∀ a (i : Nat), positions[a]? = some i ↔ entries[i]? = some a

namespace Interner

variable {α : Type} [Ord α] [Std.TransOrd α]

theorem positions_empty (a : α) (i : Nat) :
    (∅ : Std.TreeMap α Nat)[a]? = some i ↔ (#[] : Array α)[i]? = some a := by
  rw [Std.TreeMap.getElem?_emptyc, Array.getElem?_empty]
  simp only [reduceCtorEq]

instance : EmptyCollection (Interner α) := ⟨⟨#[], ∅, positions_empty⟩⟩

variable [Std.LawfulEqOrd α]

theorem positions_push (t : Interner α) {a : α} (h : t.positions[a]? = none) (b : α) (i : Nat) :
    (t.positions.insert a t.entries.size)[b]? = some i ↔ (t.entries.push a)[i]? = some b := by
  have hab : compare a b = .eq ↔ a = b := Std.LawfulEqOrd.compare_eq_iff_eq
  rw [Std.TreeMap.getElem?_insert, Array.getElem?_push]
  by_cases hb : a = b
  · subst hb
    rw [if_pos (hab.2 rfl)]
    have hnew : t.entries[i]? ≠ some a := fun hi => by
      rw [(t.positions_iff a i).2 hi] at h
      cases h
    split <;> simp_all [eq_comm]
  · rw [if_neg fun hc => hb (hab.1 hc), t.positions_iff]
    split <;> simp_all

/-- The position of an entry, which is appended if it is new. -/
def intern (t : Interner α) (a : α) : Nat × Interner α :=
  match h : t.positions[a]? with
  | some i => (i, t)
  | none =>
    let i := t.entries.size
    (i, ⟨t.entries.push a, t.positions.insert a i, t.positions_push h⟩)

end Interner

end PointsTo
