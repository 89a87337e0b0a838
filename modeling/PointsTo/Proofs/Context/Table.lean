import Mathlib.Data.Set.Finite.List
import PointsTo.Context.Policy

/-! What the table of contexts keeps, and how many contexts it can come to have. -/
namespace PointsTo

theorem finite_refs {t : Table} (n : Nat) : {r : Ref t | r.index < n}.Finite := by
  apply ((Set.finite_lt_nat n).image Ref.mk).subset
  intro r hr
  exact ⟨r.index, hr, rfl⟩

/-- There are finitely many short lists of finitely many elements. -/
theorem finite_lists {α : Type} {elements : Set α} (h : elements.Finite) (depth : Nat) :
    {l : List α | l.length ≤ depth ∧ ∀ x ∈ l, x ∈ elements}.Finite := by
  have := h.to_subtype
  refine ((List.finite_length_le elements depth).image (List.map Subtype.val)).subset ?_
  rintro l ⟨hlen, hl⟩
  exact ⟨l.attachWith _ hl, by simpa using hlen, List.attachWith_map_subtype_val hl⟩

namespace Interner

variable {α : Type} [Ord α] {t : Interner α} {i : Nat} {a b : α}

/-- No entry has two positions. -/
theorem eq_of_getElem? {j : Nat} (hi : t.entries[i]? = some a) (hj : t.entries[j]? = some a) :
    i = j :=
  Option.some.inj (((t.positions_iff a i).2 hi).symm.trans ((t.positions_iff a j).2 hj))

theorem nodup_entries (t : Interner α) : t.entries.toList.Nodup := by
  refine List.pairwise_iff_getElem.2 fun i j hi hj hlt heq => Nat.ne_of_lt hlt ?_
  refine t.eq_of_getElem? (a := t.entries.toList[i]) ?_ ?_
  · rw [← Array.getElem?_toList, List.getElem?_eq_getElem hi]
  · rw [← Array.getElem?_toList, List.getElem?_eq_getElem hj, heq]

variable [Std.TransOrd α] [Std.LawfulEqOrd α]

/-- An entry is found where it stands, or else appended. -/
theorem intern_cases (t : Interner α) (a : α) :
    (∃ i, t.entries[i]? = some a ∧ t.intern a = (i, t)) ∨
      a ∉ t.entries ∧ (t.intern a).1 = t.entries.size ∧
        (t.intern a).2.entries = t.entries.push a := by
  unfold intern
  split
  · next i hi => exact .inl ⟨i, (t.positions_iff a i).1 hi, rfl⟩
  · next hnone =>
    refine .inr ⟨fun ha => ?_, rfl, rfl⟩
    obtain ⟨i, hi⟩ := Array.mem_iff_getElem?.1 ha
    rw [(t.positions_iff a i).2 hi] at hnone
    cases hnone

/-- What stands in a table is found there. -/
theorem intern_eq (hi : t.entries[i]? = some a) : t.intern a = (i, t) := by
  rcases intern_cases t a with ⟨j, hj, heq⟩ | ⟨hnew, -⟩
  · rw [heq, eq_of_getElem? hi hj]
  · exact absurd (Array.mem_of_getElem? hi) hnew

/-- The entries without the map: a new one is appended. -/
theorem entries_intern [DecidableEq α] (t : Interner α) (a : α) :
    (t.intern a).2.entries = if a ∈ t.entries then t.entries else t.entries.push a := by
  rcases intern_cases t a with ⟨i, hi, h⟩ | ⟨hnew, -, h⟩
  · rw [h, if_pos (Array.mem_of_getElem? hi)]
  · rw [h, if_neg hnew]

/-- The position without the map: the first one in the list, or else the one after all others. -/
theorem fst_intern [BEq α] [LawfulBEq α] (t : Interner α) (a : α) :
    (t.intern a).1 = t.entries.toList.idxOf a := by
  rcases intern_cases t a with ⟨i, hi, h⟩ | ⟨hnew, h, -⟩
  · have ha : a ∈ t.entries.toList := Array.mem_toList_iff.2 (Array.mem_of_getElem? hi)
    rw [h]
    refine eq_of_getElem? hi ?_
    rw [← Array.getElem?_toList, List.getElem?_eq_getElem (List.idxOf_lt_length_of_mem ha),
      List.getElem_idxOf]
  · rw [h, List.idxOf_eq_length (by simpa using hnew), Array.length_toList]

theorem getElem?_intern_self (t : Interner α) (a : α) :
    (t.intern a).2.entries[(t.intern a).1]? = some a := by
  rcases intern_cases t a with ⟨i, hi, h⟩ | ⟨-, hi, h⟩
  · rw [h, hi]
  · simp [h, hi]

theorem lt_size_intern (t : Interner α) (a : α) :
    (t.intern a).1 < (t.intern a).2.entries.size :=
  (Array.getElem?_eq_some_iff.1 (getElem?_intern_self t a)).1

theorem size_le_intern (t : Interner α) (a : α) :
    t.entries.size ≤ (t.intern a).2.entries.size := by
  rcases intern_cases t a with ⟨i, -, h⟩ | ⟨-, -, h⟩ <;> simp [h]

theorem mem_intern : b ∈ (t.intern a).2.entries ↔ b ∈ t.entries ∨ b = a := by
  rcases intern_cases t a with ⟨i, hi, h⟩ | ⟨-, -, h⟩
  · rw [h]
    have ha : a ∈ t.entries := Array.mem_of_getElem? hi
    grind
  · simp [h]

theorem getElem?_intern (h : t.entries[i]? = some b) : (t.intern a).2.entries[i]? = some b := by
  rcases intern_cases t a with ⟨j, -, heq⟩ | ⟨-, -, heq⟩
  · rwa [heq]
  · have hlt := (Array.getElem?_eq_some_iff.1 h).1
    rw [heq, Array.getElem?_push_lt hlt, ← Array.getElem?_eq_getElem hlt, h]

end Interner

/-- One more item in front, cut to the depth. -/
theorem Context.extend_eq_take (c : Context) (item : ItemId) (depth : Nat) :
    c.extend item depth = (item :: c).take depth := by
  unfold extend
  cases depth with
  | zero => rfl
  | succ depth =>
    rw [if_neg (Nat.succ_ne_zero depth), List.take_succ_cons]
    split
    · next h => rw [List.take_of_length_le (Nat.le_of_lt_succ h)]
    · rfl

namespace ContextTable
open Interner

theorem nodup_contexts (t : ContextTable) : t.contexts.toList.Nodup := t.contextTable.nodup_entries

theorem nodup_items (t : ContextTable) : t.items.toList.Nodup := t.itemTable.nodup_entries

/-- Whether a context is one of the table. -/
def Has (t : ContextTable) (c : ContextId) : Prop := c.index < t.contexts.size

/-- The empty context comes first, and a context is a short list of items. -/
structure Valid (depth : Nat) (t : ContextTable) : Prop where
  first : t.contexts[0]? = some []
  length : ∀ c ∈ t.contexts, c.length ≤ depth
  range : ∀ c ∈ t.contexts, ∀ i ∈ c, i.index < t.items.size

/-- `t'` has everything that `t` has, at the same positions. -/
structure Extends (t t' : ContextTable) : Prop where
  contexts : ∀ (i : Nat) (c : Context), t.contexts[i]? = some c → t'.contexts[i]? = some c
  items : ∀ (i : Nat) (x : ContextItem), t.items[i]? = some x → t'.items[i]? = some x

/-- What the choice of a context leaves in the table, where new items satisfy `P`. -/
structure Chosen (depth : Nat) (t : ContextTable) (P : ContextItem → Prop) (choice : Choice) :
    Prop where
  valid : choice.table.Valid depth
  keeps : t.Extends choice.table
  known : choice.table.Has choice.context
  items : ∀ x ∈ choice.table.items, x ∈ t.items ∨ P x

variable {t t' t'' : ContextTable} {depth : Nat} {policy : Policy} {caller : ContextId}
  {site : SiteId} {object : Option NodeId} {callee entry : MethodId}

theorem Extends.refl (t : ContextTable) : t.Extends t := ⟨fun _ _ h => h, fun _ _ h => h⟩

theorem Extends.trans (h : t.Extends t') (h' : t'.Extends t'') : t.Extends t'' :=
  ⟨fun i c hc => h'.contexts i c (h.contexts i c hc), fun i x hx => h'.items i x (h.items i x hx)⟩

theorem Extends.size_le (h : t.Extends t') : t.contexts.size ≤ t'.contexts.size := by
  apply Nat.le_of_not_lt
  intro hlt
  have hlast := h.contexts _ _ (Array.getElem?_eq_getElem hlt)
  exact Nat.lt_irrefl _ (Array.getElem?_eq_some_iff.1 hlast).1

theorem Extends.items_size_le (h : t.Extends t') : t.items.size ≤ t'.items.size := by
  apply Nat.le_of_not_lt
  intro hlt
  have hlast := h.items _ _ (Array.getElem?_eq_getElem hlt)
  exact Nat.lt_irrefl _ (Array.getElem?_eq_some_iff.1 hlast).1

theorem extends_internItem (item : ContextItem) : t.Extends (t.internItem item).2 :=
  ⟨fun _ _ h => h, fun _ _ h => getElem?_intern h⟩

theorem extends_internContext (c : Context) : t.Extends (t.internContext c).2 :=
  ⟨fun _ _ h => getElem?_intern h, fun _ _ h => h⟩

theorem extends_extend (caller : ContextId) (item : ContextItem) :
    t.Extends (t.extend depth caller item).table := by
  unfold extend extend?
  cases t.context? caller with
  | none => exact .refl t
  | some c => exact (extends_internItem item).trans (extends_internContext _)

theorem extends_select : t.Extends (t.select policy depth caller site object callee).table := by
  unfold select
  split
  · exact extends_extend caller _
  · exact .refl t

theorem extends_enter : t.Extends (t.enter policy depth entry).table := by
  unfold enter
  split
  · exact extends_extend .empty _
  · exact .refl t

theorem Chosen.mono {P Q : ContextItem → Prop} {choice : Choice} (h : t.Chosen depth P choice)
    (hPQ : ∀ x, P x → Q x) : t.Chosen depth Q choice :=
  ⟨h.valid, h.keeps, h.known, fun x hx => (h.items x hx).imp_right (hPQ x)⟩

@[simp]
theorem items_empty : (∅ : ContextTable).items = #[] := rfl

theorem valid_empty : (∅ : ContextTable).Valid depth := by
  have hcontexts : (∅ : ContextTable).contexts = #[[]] := rfl
  refine ⟨by rw [hcontexts]; rfl, fun c hc => ?_, fun c hc => ?_⟩
  all_goals
    rw [hcontexts, Array.mem_singleton] at hc
    simp [hc]

theorem Valid.has_empty (h : t.Valid depth) : t.Has .empty :=
  (Array.getElem?_eq_some_iff.1 h.first).1

theorem Valid.internItem (h : t.Valid depth) (item : ContextItem) :
    (t.internItem item).2.Valid depth where
  first := h.first
  length := h.length
  range c hc i hi := Nat.lt_of_lt_of_le (h.range c hc i hi) (size_le_intern _ _)

theorem Valid.internContext (h : t.Valid depth) {c : Context} (hlen : c.length ≤ depth)
    (hrange : ∀ i ∈ c, i.index < t.items.size) : (t.internContext c).2.Valid depth where
  first := getElem?_intern h.first
  length d hd := by
    rcases mem_intern.1 hd with hd | rfl
    · exact h.length d hd
    · exact hlen
  range d hd := by
    rcases mem_intern.1 hd with hd | rfl
    · exact h.range d hd
    · exact hrange

theorem extend_chosen (h : t.Valid depth) (caller : ContextId) (item : ContextItem) :
    t.Chosen depth (· = item) (t.extend depth caller item) := by
  unfold extend extend?
  cases hc : t.context? caller with
  | none => exact ⟨h, .refl t, h.has_empty, fun _ hx => .inl hx⟩
  | some c =>
    have hitem := h.internItem item
    have hold : ∀ i ∈ c, i.index < (t.internItem item).2.items.size := fun i hi =>
      Nat.lt_of_lt_of_le (h.range c (Array.mem_of_getElem? hc) i hi) (size_le_intern _ _)
    dsimp only
    rw [Context.extend_eq_take]
    refine ⟨hitem.internContext (List.length_take_le ..) fun i hi => ?_,
      (extends_internItem item).trans (extends_internContext _), lt_size_intern _ _,
      fun x hx => mem_intern.1 hx⟩
    rcases List.mem_cons.1 (List.mem_of_mem_take hi) with rfl | hi
    · exact lt_size_intern _ _
    · exact hold i hi

/-- A call is made under a context of the table. -/
theorem select_chosen (h : t.Valid depth) (hcaller : t.Has caller) :
    t.Chosen depth (fun x => policy.item? site object callee = some x)
      (t.select policy depth caller site object callee) := by
  unfold select
  split
  · next item hitem =>
    refine (extend_chosen h caller item).mono ?_
    rintro _ rfl
    exact hitem
  · exact ⟨h, .refl t, hcaller, fun _ hx => .inl hx⟩

theorem enter_chosen (h : t.Valid depth) :
    t.Chosen depth (fun x => policy.entryItem? entry = some x) (t.enter policy depth entry) := by
  unfold enter
  split
  · next item hitem =>
    refine (extend_chosen h .empty item).mono ?_
    rintro _ rfl
    exact hitem
  · exact ⟨h, .refl t, h.has_empty, fun _ hx => .inl hx⟩

/-- Where a context was extended, it is extended again to the same one, and nothing is new. -/
theorem extend_of_extends {item : ContextItem} (hcaller : t.Has caller)
    (hext : (t.extend depth caller item).table.Extends t') : t'.extend depth caller item =
      { context := (t.extend depth caller item).context, table := t' } := by
  obtain ⟨c, hc⟩ : ∃ c, t.context? caller = some c := ⟨_, Array.getElem?_eq_getElem hcaller⟩
  simp only [extend, extend?, hc] at hext ⊢
  have hmid := (extends_internContext (t := (t.internItem item).2)
    (c.extend (t.internItem item).1 depth)).trans hext
  have hcaller' : t'.context? caller = some c := hmid.contexts _ _ hc
  have hitem : t'.internItem item = ((t.internItem item).1, t') := by
    simp only [internItem, intern_eq (hmid.items _ _ (getElem?_intern_self ..))]
  simp only [hcaller', hitem, internContext]
  rw [intern_eq (hext.contexts _ _ (getElem?_intern_self ..))]

/-- An entry has the same context again. -/
theorem enter_of_extends (hempty : t.Has .empty)
    (hext : (t.enter policy depth entry).table.Extends t') : t'.enter policy depth entry =
      { context := (t.enter policy depth entry).context, table := t' } := by
  unfold enter at hext ⊢
  cases hx : policy.entryItem? entry with
  | none => rfl
  | some item =>
    rw [hx] at hext
    exact extend_of_extends hempty hext

/-- A context that was chosen is chosen again, however the table grows. -/
theorem context_select_of_extends (hcaller : t.Has caller)
    (hext : (t.select policy depth caller site object callee).table.Extends t') :
    (t'.select policy depth caller site object callee).context =
      (t.select policy depth caller site object callee).context := by
  unfold select at hext ⊢
  cases hx : policy.item? site object callee with
  | none => rfl
  | some item =>
    rw [hx] at hext
    dsimp only at hext ⊢
    rw [extend_of_extends hcaller hext]

section Items

variable {c caller : ContextId}

theorem Has.mono (h : t.Has c) (hext : t.Extends t') : t'.Has c :=
  Nat.lt_of_lt_of_le h hext.size_le

theorem itemsOf_of_context {items : Context} (h : t.context? c = some items) :
    t.itemsOf c = items.filterMap t.item? := by
  simp [itemsOf, h]

theorem Valid.itemsOf_empty (h : t.Valid depth) : t.itemsOf .empty = [] :=
  itemsOf_of_context h.first

/-- The items that a context refers to are there. -/
theorem Valid.exists_item (h : t.Valid depth) {items : Context} (hc : t.context? c = some items) :
    ∀ i ∈ items, ∃ x, t.item? i = some x :=
  fun i hi => ⟨_, Array.getElem?_eq_getElem (h.range items (Array.mem_of_getElem? hc) i hi)⟩

/-- A context has the same items while the table grows. -/
theorem Extends.itemsOf (hext : t.Extends t') (h : t.Valid depth) (hc : t.Has c) :
    t'.itemsOf c = t.itemsOf c := by
  obtain ⟨items, hitems⟩ : ∃ items, t.context? c = some items :=
    ⟨_, Array.getElem?_eq_getElem hc⟩
  rw [itemsOf_of_context hitems, itemsOf_of_context (hext.contexts _ _ hitems)]
  refine List.filterMap_congr fun i hi => ?_
  obtain ⟨x, hx⟩ := h.exists_item hitems i hi
  exact (hext.items _ _ hx).trans hx.symm

theorem filterMap_injective {α β : Type} {f : α → Option β} {l l' : List α}
    (hf : ∀ a b x, f a = some x → f b = some x → a = b) (hl : ∀ a ∈ l, ∃ x, f a = some x)
    (hl' : ∀ a ∈ l', ∃ x, f a = some x) (h : l.filterMap f = l'.filterMap f) : l = l' := by
  induction l generalizing l' with
  | nil =>
    cases l' with
    | nil => rfl
    | cons b l' =>
      obtain ⟨y, hy⟩ := hl' b (.head _)
      simp [List.filterMap_cons_some hy] at h
  | cons a l ih =>
    obtain ⟨x, hx⟩ := hl a (.head _)
    cases l' with
    | nil => simp [List.filterMap_cons_some hx] at h
    | cons b l' =>
      obtain ⟨y, hy⟩ := hl' b (.head _)
      rw [List.filterMap_cons_some hx, List.filterMap_cons_some hy] at h
      obtain ⟨rfl, htail⟩ := List.cons.inj h
      rw [hf a b x hx hy, ih (fun a ha => hl a (.tail _ ha)) (fun b hb => hl' b (.tail _ hb))
        htail]

/-- A context is determined by its items. -/
theorem Valid.itemsOf_injective (h : t.Valid depth) {c' : ContextId} (hc : t.Has c)
    (hc' : t.Has c') (heq : t.itemsOf c = t.itemsOf c') : c = c' := by
  obtain ⟨items, hitems⟩ : ∃ items, t.context? c = some items := ⟨_, Array.getElem?_eq_getElem hc⟩
  obtain ⟨items', hitems'⟩ : ∃ items, t.context? c' = some items :=
    ⟨_, Array.getElem?_eq_getElem hc'⟩
  rw [itemsOf_of_context hitems, itemsOf_of_context hitems'] at heq
  have hsame : items = items' := by
    refine filterMap_injective (fun i j x hi hj => ?_) (h.exists_item hitems) (h.exists_item hitems')
      heq
    exact Ref.index_inj.1 (eq_of_getElem? hi hj)
  subst hsame
  exact Ref.index_inj.1 (eq_of_getElem? hitems hitems')

theorem mem_items_of_itemsOf {x : ContextItem} (h : x ∈ t.itemsOf c) : x ∈ t.items := by
  unfold ContextTable.itemsOf at h
  split at h
  · obtain ⟨i, -, hi⟩ := List.mem_filterMap.1 h
    exact Array.mem_of_getElem? hi
  · cases h

theorem Valid.length_itemsOf_le (h : t.Valid depth) (c : ContextId) :
    (t.itemsOf c).length ≤ depth := by
  unfold ContextTable.itemsOf
  split
  · next items hitems =>
    exact (List.length_filterMap_le ..).trans (h.length items (Array.mem_of_getElem? hitems))
  · exact Nat.zero_le _

/-- Without any depth there is only the empty context. -/
theorem Valid.eq_empty (h : t.Valid 0) (hc : t.Has c) : c = .empty := by
  refine h.itemsOf_injective hc h.has_empty ?_
  rw [h.itemsOf_empty]
  exact List.eq_nil_of_length_eq_zero (Nat.le_zero.1 (h.length_itemsOf_le c))

theorem filterMap_take {α β : Type} {f : α → Option β} {l : List α} (n : Nat)
    (hl : ∀ a ∈ l, ∃ x, f a = some x) : (l.take n).filterMap f = (l.filterMap f).take n := by
  induction l generalizing n with
  | nil => simp
  | cons a l ih =>
    obtain ⟨x, hx⟩ := hl a (.head _)
    cases n with
    | zero => simp
    | succ n =>
      simp [List.filterMap_cons_some hx, ih n fun b hb => hl b (.tail _ hb)]

/-- A context that was extended has the new item and then those of the old one, cut to the depth. -/
theorem itemsOf_extend (h : t'.Valid depth) {item : ContextItem} (hcaller : t.Has caller)
    (hext : (t.extend depth caller item).table.Extends t') :
    t'.itemsOf (t.extend depth caller item).context = (item :: t'.itemsOf caller).take depth := by
  obtain ⟨c, hc⟩ : ∃ c, t.context? caller = some c := ⟨_, Array.getElem?_eq_getElem hcaller⟩
  simp only [extend, extend?, hc] at hext ⊢
  have hmid := (extends_internContext (t := (t.internItem item).2)
    (c.extend (t.internItem item).1 depth)).trans hext
  have hcaller' : t'.context? caller = some c := hmid.contexts _ _ hc
  have hitem : t'.item? (t.internItem item).1 = some item := hmid.items _ _ (getElem?_intern_self ..)
  have hcontext : t'.context? ((t.internItem item).2.internContext
      (c.extend (t.internItem item).1 depth)).1 = some (c.extend (t.internItem item).1 depth) :=
    hext.contexts _ _ (getElem?_intern_self ..)
  rw [itemsOf_of_context hcontext, itemsOf_of_context hcaller', Context.extend_eq_take,
    filterMap_take, List.filterMap_cons_some hitem]
  rintro i (- | hi)
  · exact ⟨_, hitem⟩
  · exact h.exists_item hcaller' i ‹_›

/-- No context of the table is unknown. -/
theorem notice_extend {item : ContextItem} (hcaller : t.Has caller) :
    (t.extend depth caller item).notice = none := by
  obtain ⟨c, hc⟩ : ∃ c, t.context? caller = some c := ⟨_, Array.getElem?_eq_getElem hcaller⟩
  simp only [extend, extend?, hc]

end Items

/-- The number of items bounds that of contexts. -/
theorem exists_contexts_size_le (depth items : Nat) :
    ∃ bound, ∀ t : ContextTable, t.Valid depth → t.items.size ≤ items →
      t.contexts.size ≤ bound := by
  have hfinite : {c : Context | c.length ≤ depth ∧ ∀ i ∈ c, i.index < items}.Finite :=
    finite_lists (finite_refs items) depth
  refine ⟨hfinite.toFinset.card, fun t ht hitems => ?_⟩
  rw [← Array.length_toList, ← List.toFinset_card_of_nodup t.nodup_contexts]
  refine Finset.card_le_card fun c hc => ?_
  have hc : c ∈ t.contexts := by simpa using hc
  rw [Set.Finite.mem_toFinset]
  exact ⟨ht.length c hc, fun i hi => Nat.lt_of_lt_of_le (ht.range c hc i hi) hitems⟩

end ContextTable

end PointsTo
