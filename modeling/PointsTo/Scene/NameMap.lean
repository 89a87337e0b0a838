/-! Finite maps from names, kept in the order of the names. -/
namespace PointsTo

/-- Entries in strictly ascending order of their names, so that equal maps are equal lists. -/
structure NameMap (α : Type) where
  entries : List (String × α)
  ordered : entries.Pairwise (fun a b => compare a.1 b.1 = .lt)

namespace NameMap

variable {α : Type}

instance : EmptyCollection (NameMap α) := ⟨⟨[], .nil⟩⟩

instance : Inhabited (NameMap α) := ⟨∅⟩

/-- Puts an entry in its place; a later entry of one name replaces the earlier one. -/
def place (name : String) (a : α) : List (String × α) → List (String × α)
  | [] => [(name, a)]
  | (other, b) :: rest =>
    match compare name other with
    | .lt => (name, a) :: (other, b) :: rest
    | .eq => (name, a) :: rest
    | .gt => (other, b) :: place name a rest

theorem mem_place {name : String} {a : α} {entries : List (String × α)} {e : String × α}
    (h : e ∈ place name a entries) : e = (name, a) ∨ e ∈ entries := by
  induction entries with
  | nil => simpa [place] using h
  | cons head rest ih =>
    obtain ⟨other, b⟩ := head
    simp only [place] at h
    split at h
    · simpa using h
    · rcases List.mem_cons.1 h with rfl | h
      · exact .inl rfl
      · exact .inr (.tail _ h)
    · rcases List.mem_cons.1 h with rfl | h
      · exact .inr (.head _)
      · rcases ih h with rfl | h
        · exact .inl rfl
        · exact .inr (.tail _ h)

theorem ordered_place (name : String) (a : α) {entries : List (String × α)}
    (h : entries.Pairwise (fun a b => compare a.1 b.1 = .lt)) :
    (place name a entries).Pairwise (fun a b => compare a.1 b.1 = .lt) := by
  induction entries with
  | nil => simp [place]
  | cons head rest ih =>
    obtain ⟨other, b⟩ := head
    obtain ⟨first, tail⟩ := List.pairwise_cons.1 h
    simp only [place]
    split
    · next lt =>
      refine List.pairwise_cons.2 ⟨fun e he => ?_, h⟩
      rcases List.mem_cons.1 he with rfl | he
      · exact lt
      · exact Std.TransCmp.lt_trans lt (first e he)
    · next eq =>
      refine List.pairwise_cons.2 ⟨fun e he => ?_, tail⟩
      exact Std.TransCmp.lt_of_eq_of_lt eq (first e he)
    · next gt =>
      refine List.pairwise_cons.2 ⟨fun e he => ?_, ih tail⟩
      rcases mem_place he with rfl | he
      · exact Std.OrientedCmp.lt_of_gt gt
      · exact first e he

def insert (m : NameMap α) (name : String) (a : α) : NameMap α :=
  ⟨place name a m.entries, ordered_place name a m.ordered⟩

def get? (m : NameMap α) (name : String) : Option α := m.entries.lookup name

def contains (m : NameMap α) (name : String) : Bool := (m.get? name).isSome

def values (m : NameMap α) : List α := m.entries.map (·.2)

/-- The map of a list of entries in any order; of several with one name the last counts. -/
def ofList (entries : List (String × α)) : NameMap α :=
  entries.foldl (fun m e => m.insert e.1 e.2) ∅

end NameMap

end PointsTo
