import PointsTo.Proofs.Json.Text
import PointsTo.Scene.Encode
import PointsTo.Scene.Decode

/-! Decoders read back what is written for them, as deep as they are allowed to look. -/
namespace PointsTo

namespace Json

mutual

/-- The number of arrays and objects that are nested in a document. -/
def depth : Json → Nat
  | .arr items => itemsDepth items + 1
  | .obj entries => entriesDepth entries + 1
  | _ => 0

def itemsDepth : List Json → Nat
  | [] => 0
  | item :: rest => max item.depth (itemsDepth rest)

def entriesDepth : List (Option String × Json) → Nat
  | [] => 0
  | (_, item) :: rest => max item.depth (entriesDepth rest)

end

theorem itemsDepth_le {items : List Json} {n : Nat} :
    itemsDepth items ≤ n ↔ ∀ item ∈ items, item.depth ≤ n := by
  induction items with
  | nil => simp [itemsDepth]
  | cons item rest ih => rw [itemsDepth, Nat.max_le, ih, List.forall_mem_cons]

theorem entriesDepth_le {entries : List (Option String × Json)} {n : Nat} :
    entriesDepth entries ≤ n ↔ ∀ entry ∈ entries, entry.2.depth ≤ n := by
  induction entries with
  | nil => simp [entriesDepth]
  | cons entry rest ih => rw [entriesDepth, Nat.max_le, ih, List.forall_mem_cons]

private theorem succ_le_iff {m levels : Nat} : m + 1 ≤ levels ↔ ∃ n, levels = n + 1 ∧ m ≤ n := by
  constructor
  · intro h
    exact ⟨levels - 1, by omega, by omega⟩
  · rintro ⟨n, rfl, hn⟩
    omega

theorem depth_arr_le {items : List Json} {levels : Nat} :
    depth (.arr items) ≤ levels ↔ ∃ n, levels = n + 1 ∧ ∀ item ∈ items, item.depth ≤ n := by
  rw [depth, succ_le_iff]
  simp only [itemsDepth_le]

theorem depth_record_le {fields : List (String × Json)} {levels : Nat} :
    (record fields).depth ≤ levels ↔ ∃ n, levels = n + 1 ∧ ∀ f ∈ fields, f.2.depth ≤ n := by
  rw [record, depth, succ_le_iff]
  simp only [entriesDepth_le, List.forall_mem_map]

theorem depth_tagged_le {name : String} {payload : Json} {levels : Nat} :
    (tagged name payload).depth ≤ levels ↔ ∃ n, levels = n + 1 ∧ payload.depth ≤ n := by
  simp [tagged, depth_record_le]

@[simp]
theorem plain_string (s : String) : (string s).Plain := .str s

@[simp]
theorem plain_position {t : Table} (r : Ref t) : (position r).Plain := .nat r.index

theorem plain_record {fields : List (String × Json)} (h : ∀ f ∈ fields, f.2.Plain) :
    (record fields).Plain := by
  refine .obj ?_ ?_ <;> rw [List.forall_mem_map]
  · exact fun _ _ => rfl
  · exact h

theorem plain_tagged {name : String} {payload : Json} (h : payload.Plain) :
    (tagged name payload).Plain :=
  plain_record (by simpa using h)

section

variable {α : Type} {write : α → Json} (h : ∀ a, (write a).Plain)

include h

theorem plain_orNull (o : Option α) : (orNull write o).Plain := by
  cases o with
  | none => exact .null
  | some a => exact h a

theorem plain_ofNames (m : NameMap α) : (ofNames write m).Plain := by
  refine plain_record ?_
  rw [List.forall_mem_map]
  exact fun e _ => h e.2

theorem plain_map (l : List α) : (Json.arr (l.map write)).Plain := by
  refine .arr ?_
  rw [List.forall_mem_map]
  exact fun a _ => h a

end

@[simp]
theorem plain_positions {t : Table} (rs : List (Ref t)) : (positions rs).Plain :=
  plain_map plain_position rs

end Json

namespace Json.Decoder

variable {α : Type}

/-- What is written for `a` is read as `a`, by any decoder that may look deep enough. -/
def Reads (item : Decoder α) (write : α → Json) (a : α) : Prop :=
  ∀ levels, (write a).depth ≤ levels → item levels (write a) = some a

@[simp]
theorem text_string (s : String) (levels : Nat) : text levels (string s) = some s := rfl

theorem reads_text (s : String) : Reads text string s := fun levels _ => text_string s levels

@[simp]
theorem flag_bool (b : Bool) (levels : Nat) : flag levels (.bool b) = some b := rfl

theorem reads_natBelow {bound n : Nat} (h : n < bound) : Reads (natBelow bound) .nat n :=
  fun _ _ => if_pos h

theorem reads_ref {t : Table} {r : Ref t} (h : r.index < 1 <<< 32) : Reads ref position r := by
  intro levels hlevels
  rw [ref, position, reads_natBelow h levels (Nat.zero_le _)]
  rfl

private theorem mapM_map {β γ : Type} {f : α → β} {read : β → Option γ} {g : α → γ} {l : List α}
    (h : ∀ a ∈ l, read (f a) = some (g a)) : (l.map f).mapM read = some (l.map g) := by
  induction l with
  | nil => rfl
  | cons a l ih =>
    rw [List.map_cons, List.mapM_cons, h a List.mem_cons_self, ih fun b hb => h b (.tail _ hb)]
    rfl

/-- What is written item by item is read item by item. -/
theorem mapM_write {read : Json → Option α} {write : α → Json} {l : List α}
    (h : ∀ a ∈ l, read (write a) = some a) : (l.map write).mapM read = some l := by
  rw [mapM_map (g := id) h, List.map_id]

theorem Reads.list {item : Decoder α} {write : α → Json} {l : List α}
    (h : ∀ a ∈ l, Reads item write a) : Reads (list item) (fun l => .arr (l.map write)) l := by
  intro levels hlevels
  obtain ⟨n, rfl, hn⟩ := depth_arr_le.1 hlevels
  exact mapM_write fun a ha => h a ha n (hn _ (List.mem_map_of_mem ha))

theorem Reads.orNull {item : Decoder α} {write : α → Json} {o : Option α}
    (h : ∀ a ∈ o, Reads item write a ∧ write a ≠ .null) :
    Reads (optional item) (Json.orNull write) o := by
  intro levels hlevels
  cases o with
  | none => rfl
  | some a =>
    obtain ⟨hreads, hnull⟩ := h a rfl
    rw [Json.orNull, optional]
    · rw [hreads levels hlevels]
      rfl
    · exact hnull

@[simp]
theorem alternative_string (name : String) (levels : Nat) :
    alternative levels (string name) = some (name, none) := rfl

@[simp]
theorem alternative_tagged (name : String) (payload : Json) (levels : Nat) :
    alternative (levels + 1) (tagged name payload) = some (name, some (levels, payload)) := rfl

@[simp]
theorem plain_none (a : α) : plain a none = some a := rfl

@[simp]
theorem holding_some (item : Decoder α) (levels : Nat) (json : Json) :
    holding item (some (levels, json)) = item levels json := rfl

@[simp]
theorem required_some (item : Decoder α) (levels : Nat) (json : Json) :
    required item levels (some json) = item levels json := rfl

@[simp]
theorem maybe_some (item : Decoder α) (levels : Nat) (json : Json) :
    maybe item levels (some json) = optional item levels json := rfl

private theorem filter_key {l : List (String × Json)} {f : String × Json}
    (hnodup : (l.map (·.1)).Nodup) (hf : f ∈ l) :
    (l.map fun f => (some f.1, f.2)).filter (·.1 == some f.1) = [(some f.1, f.2)] := by
  induction l with
  | nil => cases hf
  | cons d l ih =>
    rw [List.map_cons, List.nodup_cons] at hnodup
    rw [List.map_cons, List.filter_cons]
    rcases List.mem_cons.1 hf with rfl | hf
    · have hnone : (l.map fun d => (some d.1, d.2)).filter (·.1 == some f.1) = [] := by
        rw [List.filter_eq_nil_iff, List.forall_mem_map]
        intro d hd heq
        exact hnodup.1 (List.mem_map.2 ⟨d, hd, by simpa using heq⟩)
      simp [hnone]
    · have hne : d.1 ≠ f.1 := fun heq => hnodup.1 (heq ▸ List.mem_map_of_mem hf)
      simp [hne, ih hnodup.2 hf]

/-- The fields of a record are found by their names. -/
theorem fields_record {names : List String} {l : List (String × Json)} {levels : Nat}
    (hnames : l.map (·.1) = names) (hnodup : names.Nodup) :
    fields names (levels + 1) (record l) = some (levels, l.map fun f => some f.2) := by
  subst hnames
  have hfields : (l.map (·.1)).mapM (field? (l.map fun f => (some f.1, f.2))) =
      some (l.map fun f => some f.2) := by
    refine mapM_map fun f hf => ?_
    rw [field?, filter_key hnodup hf]
  simp [fields, record, hfields]

end Json.Decoder

namespace NameMap

variable {α : Type}

/-- A name after all others is put at the end. -/
private theorem place_of_gt {name : String} {a : α} {entries : List (String × α)}
    (h : ∀ e ∈ entries, compare e.1 name = .lt) : place name a entries = entries ++ [(name, a)] := by
  induction entries with
  | nil => rfl
  | cons e rest ih =>
    have hgt : compare name e.1 = .gt := Std.OrientedCmp.gt_of_lt (h e List.mem_cons_self)
    rw [place, hgt, ih fun e he => h e (.tail _ he)]
    rfl

private theorem entries_foldl {l : List (String × α)} {m : NameMap α}
    (h : (m.entries ++ l).Pairwise (fun a b => compare a.1 b.1 = .lt)) :
    (l.foldl (fun m e => m.insert e.1 e.2) m).entries = m.entries ++ l := by
  induction l generalizing m with
  | nil => simp
  | cons e l ih =>
    have hplace : (m.insert e.1 e.2).entries = m.entries ++ [e] :=
      place_of_gt fun d hd => (List.pairwise_append.1 h).2.2 d hd e List.mem_cons_self
    rw [List.foldl_cons, ih, hplace, List.append_assoc, List.singleton_append]
    rwa [hplace, List.append_assoc, List.singleton_append]

/-- A map is the map of its entries. -/
theorem ofList_entries (m : NameMap α) : ofList m.entries = m := by
  have hentries : (ofList m.entries).entries = m.entries :=
    entries_foldl (m := ∅) m.ordered
  generalize ofList m.entries = n at hentries
  cases m
  cases n
  cases hentries
  rfl

end NameMap

namespace Json.Decoder

variable {α : Type}

theorem Reads.names {item : Decoder α} {write : α → Json} {m : NameMap α}
    (h : ∀ a ∈ m.values, Reads item write a) : Reads (names item) (ofNames write) m := by
  intro levels hlevels
  obtain ⟨n, rfl, hn⟩ := depth_record_le.1 hlevels
  rw [List.forall_mem_map] at hn
  have hfound : (ofNames write m) = .obj (m.entries.map fun e => (some e.1, write e.2)) := by
    rw [ofNames, record, List.map_map]
    rfl
  rw [hfound, Decoder.names, mapM_map (g := id)]
  · simp [NameMap.ofList_entries]
  · intro e he
    simp [h e.2 (List.mem_map_of_mem he) n (hn e he)]

end Json.Decoder

end PointsTo
