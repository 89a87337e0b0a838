import Mathlib.Data.List.Perm.Subperm
import PointsTo.Ref

/-! Walks from position to position. A table has only so many entries, so that a walk ends or comes
back. -/
namespace PointsTo

/-- Distinct positions are no more than the table has entries. -/
theorem Ref.length_le_of_nodup {t : Table} {n : Nat} {l : List (Ref t)} (hnodup : l.Nodup)
    (hlt : ∀ r ∈ l, r.index < n) : l.length ≤ n := by
  have hdistinct : (l.map Ref.index).Nodup :=
    List.pairwise_map.2 (hnodup.imp fun hne heq => hne (Ref.index_inj.1 heq))
  have hsub : l.map Ref.index ⊆ List.range n := by
    intro i hi
    obtain ⟨r, hr, rfl⟩ := List.mem_map.1 hi
    exact List.mem_range.2 (hlt r hr)
  simpa using (List.subperm_of_subset hdistinct hsub).length_le

/-- The distinct positions that `next` leads to from `r` on, up to where it ends, or comes back to one
of them or to one that was seen before. -/
structure Trail {t : Table} (next : Ref t → Option (Ref t)) (seen : List (Ref t)) (r : Ref t)
    (path : List (Ref t)) : Prop where
  links : (r :: path).IsChain (next · = some ·)
  distinct : path.Nodup
  fresh : ∀ a ∈ path, a ∉ seen
  whole : ∀ a ∈ r :: path, ∀ b, next a = some b → b ∈ seen ∨ b ∈ path

namespace Trail

variable {t : Table} {next : Ref t → Option (Ref t)} {seen path : List (Ref t)} {r a : Ref t}

theorem nil_iff : Trail next seen r [] ↔ ∀ a, next r = some a → a ∈ seen :=
  ⟨fun h a ha => (h.whole r (.head _) a ha).resolve_right nofun,
    fun h => ⟨.singleton r, .nil, nofun, by simpa using h⟩⟩

theorem cons_iff :
    Trail next seen r (a :: path) ↔ next r = some a ∧ a ∉ seen ∧ Trail next (a :: seen) a path := by
  constructor
  · rintro ⟨hlinks, hdistinct, hfresh, hwhole⟩
    obtain ⟨hr, hlinks⟩ := List.isChain_cons_cons.1 hlinks
    obtain ⟨ha, hdistinct⟩ := List.nodup_cons.1 hdistinct
    exact ⟨hr, hfresh a (.head _), hlinks, hdistinct, by grind, by grind⟩
  · rintro ⟨hr, ha, hlinks, hdistinct, hfresh, hwhole⟩
    have hnew : a ∉ path := fun hmem => hfresh a hmem (.head _)
    exact ⟨List.isChain_cons_cons.2 ⟨hr, hlinks⟩, List.nodup_cons.2 ⟨hnew, hdistinct⟩, by grind,
      by grind⟩

theorem congr {seen' : List (Ref t)} (h : Trail next seen r path)
    (hseen : ∀ a, a ∈ seen' ↔ a ∈ seen) : Trail next seen' r path :=
  { h with
    fresh := fun a ha => (hseen a).not.2 (h.fresh a ha)
    whole := fun a ha b hb => (h.whole a ha b hb).imp_left (hseen b).2 }

variable {n : Nat} (hn : ∀ a b, next a = some b → b.index < n)

include hn

theorem index_lt (h : Trail next seen r path) : ∀ a ∈ path, a.index < n := by
  induction path generalizing seen r with
  | nil => nofun
  | cons a path ih =>
    obtain ⟨hr, -, h⟩ := cons_iff.1 h
    exact List.forall_mem_cons.2 ⟨hn r a hr, ih h⟩

theorem length_le (h : Trail next seen r path) : path.length ≤ n :=
  Ref.length_le_of_nodup h.distinct (h.index_lt hn)

theorem exists_trail {seen : List (Ref t)} (r : Ref t) (hseen : seen.Nodup)
    (hlt : ∀ a ∈ seen, a.index < n) : ∃ path, Trail next seen r path := by
  cases hr : next r with
  | none => exact ⟨[], nil_iff.2 (by simp [hr])⟩
  | some a =>
    by_cases ha : a ∈ seen
    · exact ⟨[], nil_iff.2 (by simp [hr, ha])⟩
    have hseen' := List.nodup_cons.2 ⟨ha, hseen⟩
    have hlt' : ∀ b ∈ a :: seen, b.index < n := List.forall_mem_cons.2 ⟨hn r a hr, hlt⟩
    have hle : (a :: seen).length ≤ n := Ref.length_le_of_nodup hseen' hlt'
    obtain ⟨path, h⟩ := exists_trail a hseen' hlt'
    exact ⟨a :: path, cons_iff.2 ⟨hr, ha, h⟩⟩
termination_by n - seen.length
decreasing_by
  rw [List.length_cons] at hle ⊢
  omega

end Trail

end PointsTo
