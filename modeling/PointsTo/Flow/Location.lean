import PointsTo.Order
import PointsTo.Scene.Place

/-! What the nodes of the flow graph stand for, apart from their context. -/
namespace PointsTo

/-- An object that no expression of the program allocates. -/
inductive Synthetic where
  /-- The result of a platform method. -/
  | result (site : SiteId)
  /-- An object assumed to be passed for a parameter. -/
  | parameter (method : MethodId) (index : Nat)
  /-- An object assumed to be the receiver. -/
  | receiver (method : MethodId)
  /-- The container that a copying read returns. -/
  | containerCopy (site : SiteId)
deriving DecidableEq

inductive Location where
  | value (v : ValueId)
  /-- A field of a heap object. -/
  | field (object : NodeId) (key : FieldKey)
  /-- A field reference that is not an expression of the program. -/
  | fieldRef (base : NodeId) (key : FieldKey)
  /-- The function that a bind call makes of another one. -/
  | bound (origin : NodeId) (site : SiteId)
  | synthetic (s : Synthetic)
  /-- A global slot, such as a storage key or a worker channel. -/
  | slot (space key : String)
  /-- The variable between an allocation and the field that it is stored in. -/
  | temporary (stmt : StmtId)
  | globalObject
deriving DecidableEq

namespace FieldKey

/-- Named fields come before elements. -/
def rank : FieldKey → Nat × String
  | .named name => (0, name)
  | .element => (1, "")

theorem rank_injective {a b : FieldKey} (h : a.rank = b.rank) : a = b := by
  cases a <;> cases b <;> simp_all [rank]

end FieldKey

namespace Location

/-- Locations are ordered by their form and then by its parts. -/
def rank : Location → Nat × Nat × Nat × String × String
  | .value v => (0, v.index, 0, "", "")
  | .field object key => (1, object.index, key.rank.1, key.rank.2, "")
  | .fieldRef base key => (2, base.index, key.rank.1, key.rank.2, "")
  | .bound origin site => (3, origin.index, site.index, "", "")
  | .synthetic (.result site) => (4, site.index, 0, "", "")
  | .synthetic (.parameter method index) => (5, method.index, index, "", "")
  | .synthetic (.receiver method) => (6, method.index, 0, "", "")
  | .synthetic (.containerCopy site) => (7, site.index, 0, "", "")
  | .slot space key => (8, 0, 0, space, key)
  | .temporary stmt => (9, stmt.index, 0, "", "")
  | .globalObject => (10, 0, 0, "", "")

theorem rank_injective {a b : Location} (h : a.rank = b.rank) : a = b := by
  cases a with
  | synthetic s =>
    cases b with
    | synthetic s' => cases s <;> cases s' <;> simp_all [rank]
    | _ => cases s <;> simp [rank] at h
  | field o k =>
    cases b with
    | field o' k' =>
      simp only [rank, Prod.mk.injEq, true_and, and_true] at h
      rw [Ref.index_inj.1 h.1, FieldKey.rank_injective (Prod.ext h.2.1 h.2.2)]
    | synthetic s => cases s <;> simp [rank] at h
    | _ => simp [rank] at h
  | fieldRef o k =>
    cases b with
    | fieldRef o' k' =>
      simp only [rank, Prod.mk.injEq, true_and, and_true] at h
      rw [Ref.index_inj.1 h.1, FieldKey.rank_injective (Prod.ext h.2.1 h.2.2)]
    | synthetic s => cases s <;> simp [rank] at h
    | _ => simp [rank] at h
  | _ =>
    cases b with
    | synthetic s => cases s <;> simp [rank] at h
    | _ => simp_all [rank]

instance : Ord Location := ⟨compareOn rank⟩

instance : Std.TransOrd Location := inferInstanceAs (Std.TransCmp (compareOn rank))

instance : Std.LawfulEqOrd Location where
  compare_self := Std.ReflOrd.compare_self
  eq_of_compare h := rank_injective (Std.LawfulEqOrd.eq_of_compare h)

end Location

end PointsTo
