import Mathlib.Logic.Relation
import PointsTo.Proofs.Context.Table

/-! Contexts are bounded histories: whoever asks for contexts under those it was given before gets
the newest items of what it asked for. -/
namespace PointsTo

/-- The contexts that were given out, each with everything that led to it, newest first, and the
table that they are kept in. -/
structure ContextSession where
  issued : List (ContextId × List ContextItem) := []
  table : ContextTable := ∅

namespace ContextSession

/-- What a call may be made under: the empty context, or one that was given out. -/
def known (s : ContextSession) : List (ContextId × List ContextItem) := (.empty, []) :: s.issued

/-- Gives out a context. -/
def grant (s : ContextSession) (choice : ContextTable.Choice) (history : List ContextItem) :
    ContextSession :=
  ⟨(choice.context, history) :: s.issued, choice.table⟩

/-- One request: for the context of an entry, or for that of a call under a known context. -/
inductive Step (policy : Policy) (depth : Nat) (s : ContextSession) : ContextSession → Prop where
  | enter (entry : MethodId) :
      Step policy depth s
        (s.grant (s.table.enter policy depth entry) (policy.entryItem? entry).toList)
  | select {caller : ContextId} {history : List ContextItem} (site : SiteId)
      (object : Option NodeId) (callee : MethodId) : (caller, history) ∈ s.known →
      Step policy depth s
        (s.grant (s.table.select policy depth caller site object callee)
          ((policy.item? site object callee).toList ++ history))

/-- Any number of requests. -/
abbrev Leads (policy : Policy) (depth : Nat) : ContextSession → ContextSession → Prop :=
  Relation.ReflTransGen (Step policy depth)

/-- Every known context has the newest items of its history. -/
structure Exact (depth : Nat) (s : ContextSession) : Prop where
  valid : s.table.Valid depth
  has : ∀ k ∈ s.known, s.table.Has k.1
  items : ∀ k ∈ s.known, s.table.itemsOf k.1 = k.2.take depth

variable {policy : Policy} {depth : Nat} {s s' : ContextSession}

theorem exact_start (depth : Nat) : Exact depth {} := by
  have hvalid : (∅ : ContextTable).Valid depth := ContextTable.valid_empty
  refine ⟨hvalid, fun k hk => ?_, fun k hk => ?_⟩
  all_goals
    obtain rfl : k = (.empty, []) := by simpa [known] using hk
  · exact hvalid.has_empty
  · simpa using hvalid.itemsOf_empty

theorem Exact.grant (h : s.Exact depth) {P : ContextItem → Prop} {choice : ContextTable.Choice}
    {history : List ContextItem} (hchoice : s.table.Chosen depth P choice)
    (hitems : choice.table.itemsOf choice.context = history.take depth) :
    (s.grant choice history).Exact depth := by
  have hold : ∀ k ∈ (s.grant choice history).known,
      k = (choice.context, history) ∨ k ∈ s.known := by
    simp only [known, ContextSession.grant, List.mem_cons]
    tauto
  refine ⟨hchoice.valid, fun k hk => ?_, fun k hk => ?_⟩
  · rcases hold k hk with rfl | hk
    · exact hchoice.known
    · exact (h.has k hk).mono hchoice.keeps
  · rcases hold k hk with rfl | hk
    · exact hitems
    · exact (hchoice.keeps.itemsOf h.valid (h.has k hk)).trans (h.items k hk)

/-- Cutting the older items before or after one more was added comes to the same. -/
theorem take_cons_take {α : Type} (k : Nat) (a : α) (l : List α) :
    (a :: l.take k).take k = (a :: l).take k := by
  cases k with
  | zero => rfl
  | succ k => simp [List.take_take]

theorem Exact.itemsOf_extend (h : s.Exact depth) {k : ContextId × List ContextItem}
    (hk : k ∈ s.known) (item : ContextItem) :
    (s.table.extend depth k.1 item).table.itemsOf (s.table.extend depth k.1 item).context =
      (item :: k.2).take depth := by
  have hchosen := ContextTable.extend_chosen h.valid k.1 item
  rw [ContextTable.itemsOf_extend hchosen.valid (h.has k hk) (.refl _),
    hchosen.keeps.itemsOf h.valid (h.has k hk), h.items k hk, take_cons_take]

theorem Exact.step (h : s.Exact depth) (hstep : Step policy depth s s') :
    s'.Exact depth ∧ s.table.Extends s'.table := by
  cases hstep with
  | enter entry =>
    have hchosen : s.table.Chosen depth _ (s.table.enter policy depth entry) :=
      ContextTable.enter_chosen h.valid
    refine ⟨h.grant hchosen ?_, hchosen.keeps⟩
    unfold ContextTable.enter
    cases policy.entryItem? entry with
    | none => simpa using h.valid.itemsOf_empty
    | some item => exact h.itemsOf_extend (List.mem_cons_self ..) item
  | @select caller history site object callee hcaller =>
    have hchosen : s.table.Chosen depth _
        (s.table.select policy depth caller site object callee) :=
      ContextTable.select_chosen h.valid (h.has _ hcaller)
    refine ⟨h.grant hchosen ?_, hchosen.keeps⟩
    unfold ContextTable.select
    cases policy.item? site object callee with
    | none => exact h.items _ hcaller
    | some item => exact h.itemsOf_extend hcaller item

theorem Exact.leads (h : s.Exact depth) (hleads : Leads policy depth s s') :
    s'.Exact depth ∧ s.table.Extends s'.table := by
  induction hleads with
  | refl => exact ⟨h, .refl _⟩
  | tail _ hstep ih =>
    have hlast := ih.1.step hstep
    exact ⟨hlast.1, ih.2.trans hlast.2⟩

/-- An entry has the context that its own item makes, if it has one. -/
theorem Exact.enter (h : s.Exact depth) (entry : MethodId) :
    let choice := s.table.enter policy depth entry
    choice.notice = none ∧
      choice.table.itemsOf choice.context = (policy.entryItem? entry).toList.take depth := by
  intro choice
  have hstep : Step policy depth s _ := .enter entry
  refine ⟨?_, (h.step hstep).1.items (choice.context, _) (.tail _ (.head _))⟩
  unfold choice ContextTable.enter
  cases policy.entryItem? entry with
  | none => rfl
  | some item => exact ContextTable.notice_extend h.valid.has_empty

/-- One more item comes in front, and without a new item the context stays as it is. -/
theorem Exact.select (h : s.Exact depth) {k : ContextId × List ContextItem} (hk : k ∈ s.known)
    (site : SiteId) (object : Option NodeId) (callee : MethodId) :
    let choice := s.table.select policy depth k.1 site object callee
    choice.notice = none ∧
      match policy.item? site object callee with
      | some item =>
        choice.table.itemsOf choice.context = (item :: s.table.itemsOf k.1).take depth
      | none => choice.context = k.1 ∧ choice.table = s.table := by
  intro choice
  unfold choice ContextTable.select
  cases policy.item? site object callee with
  | none => exact ⟨rfl, rfl, rfl⟩
  | some item =>
    refine ⟨ContextTable.notice_extend (h.has k hk), ?_⟩
    dsimp only
    rw [h.items k hk, take_cons_take]
    exact h.itemsOf_extend hk item

end ContextSession

end PointsTo
