import Mathlib.Logic.Relation
import PointsTo.Proofs.Call.Sites

/-! The search over a call graph finds exactly what calls lead to, and loses nothing as the graph
grows. -/
namespace PointsTo

namespace Search

variable {α : Type} [DecidableEq α] {next : α → List α} {fuel : Nat} {seen queue : List α}

/-- `b` comes after `a` in any number of steps. -/
abbrev Leads (next : α → List α) : α → α → Prop := Relation.ReflTransGen fun a b => b ∈ next a

theorem mem_visit_of_mem_seen {b : α} (h : b ∈ seen) : b ∈ visit next fuel seen queue := by
  fun_induction visit with
  | case1 | case2 => exact h
  | case3 _ _ _ _ _ ih => exact ih h
  | case4 _ _ _ _ _ ih => exact ih (.tail _ h)

/-- Whatever is visited was there or comes after something in the queue. -/
theorem leads_of_mem_visit {b : α} (h : b ∈ visit next fuel seen queue) :
    b ∈ seen ∨ ∃ a ∈ queue, Leads next a b := by
  fun_induction visit with
  | case1 | case2 => exact .inl h
  | case3 _ _ a queue _ ih =>
    refine (ih h).imp_right ?_
    rintro ⟨x, hx, hb⟩
    exact ⟨x, .tail _ hx, hb⟩
  | case4 _ _ a queue _ ih =>
    rcases ih h with hb | ⟨x, hx, hb⟩
    · rcases List.mem_cons.1 hb with rfl | hb
      · exact .inr ⟨b, .head _, .refl⟩
      · exact .inl hb
    · rcases List.mem_append.1 hx with hx | hx
      · exact .inr ⟨x, .tail _ hx, hb⟩
      · exact .inr ⟨a, .head _, .head hx hb⟩

/-- With fuel for the queue and for the steps that leave what is not seen yet, the search covers the
queue and leaves no step out. -/
theorem visit_closed {weight : List α → Nat}
    (hweight : ∀ a seen, a ∉ seen → (next a).length + weight (a :: seen) ≤ weight seen)
    (hfuel : queue.length + weight seen < fuel)
    (hseen : ∀ a ∈ seen, ∀ b ∈ next a, b ∈ seen ∨ b ∈ queue) :
    (∀ a ∈ queue, a ∈ visit next fuel seen queue) ∧
      ∀ a ∈ visit next fuel seen queue, ∀ b ∈ next a, b ∈ visit next fuel seen queue := by
  fun_induction visit with
  | case1 => omega
  | case2 => exact ⟨nofun, fun a ha b hb => (hseen a ha b hb).resolve_right nofun⟩
  | case3 fuel seen a queue ha ih =>
    rw [List.length_cons] at hfuel
    obtain ⟨hqueue, hclosed⟩ := ih (by omega) fun x hx b hb => by
      rcases hseen x hx b hb with hb | hb
      · exact .inl hb
      · rcases List.mem_cons.1 hb with rfl | hb
        · exact .inl ha
        · exact .inr hb
    refine ⟨fun x hx => ?_, hclosed⟩
    rcases List.mem_cons.1 hx with rfl | hx
    · exact mem_visit_of_mem_seen ha
    · exact hqueue x hx
  | case4 fuel seen a queue ha ih =>
    have hle := hweight a seen ha
    rw [List.length_cons] at hfuel
    obtain ⟨hqueue, hclosed⟩ := ih (by rw [List.length_append]; omega) fun x hx b hb => by
      rcases List.mem_cons.1 hx with rfl | hx
      · exact .inr (List.mem_append_right _ hb)
      · rcases hseen x hx b hb with hb | hb
        · exact .inl (.tail _ hb)
        · rcases List.mem_cons.1 hb with rfl | hb
          · exact .inl (.head _)
          · exact .inr (List.mem_append_left _ hb)
    refine ⟨fun x hx => ?_, hclosed⟩
    rcases List.mem_cons.1 hx with rfl | hx
    · exact mem_visit_of_mem_seen (.head _)
    · exact hqueue x (List.mem_append_left _ hx)

theorem mem_reach_iff (weight : List α → Nat) {start : List α} {b : α}
    (hweight : ∀ a seen, a ∉ seen → (next a).length + weight (a :: seen) ≤ weight seen)
    (hfuel : start.length + weight [] < fuel) :
    b ∈ reach next fuel start ↔ ∃ a ∈ start, Leads next a b := by
  rw [reach, List.mem_reverse]
  constructor
  · intro h
    exact (leads_of_mem_visit h).resolve_left nofun
  · rintro ⟨a, ha, hb⟩
    obtain ⟨hstart, hclosed⟩ := visit_closed hweight hfuel (by simp)
    induction hb with
    | refl => exact hstart a ha
    | tail _ hb ih => exact hclosed _ ih _ hb

/-- What belongs to `a` is no longer counted once `a` is seen. -/
theorem length_filter_key_le {β : Type} (key : β → Option α) (l : List β) {a : α} {seen : List α}
    (ha : a ∉ seen) :
    (l.filter (key · == some a)).length + (l.filter fun b => (key b).all (· ∉ a :: seen)).length ≤
      (l.filter fun b => (key b).all (· ∉ seen)).length := by
  induction l with
  | nil => simp
  | cons b l ih =>
    cases hb : key b with
    | none =>
      simp [hb] at ih ⊢
      omega
    | some k =>
      by_cases hk : k = a
      · simp [hb, hk, ha] at ih ⊢
        omega
      · by_cases hs : k ∈ seen
        · simp [hb, hk, hs] at ih ⊢
          exact ih
        · simp [hb, hk, hs] at ih ⊢
          omega

end Search

namespace CallGraph

/-- One node calls another. -/
def Calls (g : CallGraph) (i j : Nat) : Prop := ∃ e ∈ g.edges, e.caller = i ∧ e.callee = j

variable {g g' : CallGraph} {source target : MethodId}

theorem mem_next {i j : Nat} : j ∈ g.next i ↔ g.Calls i j := by
  simp [next, Calls, and_assoc]

theorem reaches_iff : g.reaches source target = true ↔ source = target ∨ ∃ i j,
    g.nodeOf[source]? = some i ∧ g.nodeOf[target]? = some j ∧
      Relation.ReflTransGen g.Calls i j := by
  unfold reaches
  split
  · next h => simp [h]
  · next h =>
    have hreach : ∀ i j, j ∈ Search.reach g.next (g.edges.size + 2) [i] ↔
        Relation.ReflTransGen g.Calls i j := by
      intro i j
      rw [Search.mem_reach_iff fun seen =>
        (g.edges.toList.filter fun e => (some e.caller).all (· ∉ seen)).length]
      · simp [Search.Leads, mem_next]
      · intro a seen ha
        rw [next, List.length_map]
        exact Search.length_filter_key_le (fun e : CallEdge => some e.caller) _ ha
      · have hle := List.length_filter_le
          (fun e : CallEdge => (some e.caller).all (· ∉ ([] : List Nat))) g.edges.toList
        have hsize : g.edges.toList.length = g.edges.size := Array.length_toList
        rw [List.length_singleton]
        omega
    cases hi : g.nodeOf[source]? with
    | none => simp [h]
    | some i =>
      cases hj : g.nodeOf[target]? with
      | none => simp [h]
      | some j => simp [h, hreach]

theorem Grows.reaches {scene : Scene} (h : g.Grows scene g') (hr : g.reaches source target = true) :
    g'.reaches source target = true := by
  rw [reaches_iff] at hr ⊢
  rcases hr with hr | ⟨i, j, hi, hj, hpath⟩
  · exact .inl hr
  · refine .inr ⟨i, j, h.nodeOf _ _ hi, h.nodeOf _ _ hj, Relation.ReflTransGen.mono ?_ i j hpath⟩
    rintro a b ⟨e, he, hab⟩
    exact ⟨e, h.edges e he, hab⟩

end CallGraph

end PointsTo
