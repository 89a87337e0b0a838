import PointsTo.Proofs.Analysis.Passages

/-! Which methods hand out one shared object: a static method that stores a new object in a static
field or global property from which assignments lead to a returned value. An analysis answers that
question once for each method, from its summary, and never takes the answer back. -/
namespace PointsTo

namespace Summary

/-- The body assigns `u` to `v`. -/
def Assigns (s : Summary) (u v : ValueId) : Prop :=
  ∃ e ∈ s.edges, e.kind ≠ .address ∧ e.source = u ∧ e.target = v

/-- The body keeps a new object in a static field or global property, at once or by one assignment,
from which assignments lead to a returned value. -/
def HandsOut (s : Summary) : Prop :=
  ∃ e ∈ s.edges, e.kind = .address ∧ ∃ g ∈ s.statics, (g = e.target ∨ s.Assigns e.target g) ∧
    ∃ r ∈ s.returned, Relation.ReflTransGen s.Assigns g r

variable {s : Summary} {u v : ValueId}

theorem mem_successors : v ∈ s.successors u ↔ s.Assigns u v := by
  simp [successors, Assigns, and_comm, and_assoc]

/-- The value that an edge leads away from, if it is an assignment. -/
def assigned? (e : LocalEdge) : Option ValueId := if e.kind = .address then none else some e.source

theorem length_successors :
    (s.successors v).length = (s.edges.toList.filter (assigned? · == some v)).length := by
  unfold successors
  induction s.edges.toList with
  | nil => rfl
  | cons e es ih =>
    by_cases hkind : e.kind = .address <;> by_cases hsource : e.source = v <;>
      simp [assigned?, hkind, hsource, ih]

/-- The search for a returned value follows all assignments, also around a cycle. -/
theorem isReturnedFrom_iff :
    s.isReturnedFrom v = true ↔ ∃ r ∈ s.returned, Relation.ReflTransGen s.Assigns v r := by
  have hreach : ∀ r, r ∈ Search.reach s.successors (s.edges.size + 2) [v] ↔
      Relation.ReflTransGen s.Assigns v r := by
    intro r
    rw [Search.mem_reach_iff fun seen =>
      (s.edges.toList.filter fun e => (assigned? e).all (· ∉ seen)).length]
    · simp [Search.Leads, mem_successors]
    · intro a seen ha
      rw [length_successors]
      exact Search.length_filter_key_le assigned? _ ha
    · have hle := List.length_filter_le
        (fun e => (assigned? e).all (· ∉ ([] : List ValueId))) s.edges.toList
      have hsize : s.edges.toList.length = s.edges.size := Array.length_toList
      rw [List.length_singleton]
      omega
  simp only [isReturnedFrom, List.any_eq_true, hreach, List.contains_iff_mem, Array.mem_toList_iff]
  exact exists_congr fun r => And.comm

theorem sharesResult_iff : s.sharesResult = true ↔ s.HandsOut := by
  simp only [sharesResult, sharedTargets, List.any_eq_true, Bool.and_eq_true, decide_eq_true_eq,
    Array.mem_toList_iff, List.mem_filter, List.mem_cons, mem_successors,
    Std.TreeSet.contains_iff_mem, isReturnedFrom_iff]
  refine exists_congr fun e => and_congr_right fun _ => and_congr_right fun _ => ?_
  refine exists_congr fun g => ?_
  rw [and_comm (a := g = e.target ∨ _), and_assoc]

/-- A body that touches no static field or global property shares nothing. -/
theorem not_handsOut_of_isEmpty (h : s.statics.isEmpty = true) : ¬ s.HandsOut := by
  rintro ⟨e, -, -, g, hg, -⟩
  exact (isEmpty_iff_forall_not_mem _).1 h g hg

end Summary

namespace State

variable {p : Problem} {w : Phase} {s t : State} {m : MethodId} {shared : Bool}

/-- A second answer about a method is the first one, since its summary has not changed. -/
theorem Turn.singletons (h : s.Turn p w t) (hs : s.Sane p)
    (hm : s.singletons[m]? = some shared) : t.singletons[m]? = some shared := by
  cases h with
  | step h =>
    cases h with
    | records h =>
      cases h with
      | @singleton k decl summary hdecl hsummary =>
        rw [getElem?_insert]
        split
        · next heq =>
          subst heq
          obtain ⟨decl', summary', hdecl', hsummary', rfl⟩ := hs.recorded.singletons k shared hm
          rw [hdecl] at hdecl'
          rw [hsummary] at hsummary'
          cases hdecl'
          cases hsummary'
          rfl
        · exact hm
      | _ => exact hm
    | _ => exact hm
  | _ => exact hm

theorem Passage.singletons (h : s.Passage p t) (hs : s.Sane p)
    (hm : s.singletons[m]? = some shared) : t.singletons[m]? = some shared := by
  cases h with
  | turn h => exact h.singletons hs hm
  | solution h =>
    rw [h.rest]
    exact hm
  | round => exact hm

theorem LeadsTo.singletons (h : s.LeadsTo p t) (hs : s.Sane p)
    (hm : s.singletons[m]? = some shared) : t.singletons[m]? = some shared := by
  induction h with
  | refl => exact hm
  | tail h h' ih => exact h'.singletons (LeadsTo.sane h hs) ih

end State

namespace Run
open State

variable {p : Problem} {s : State} {m : MethodId} {shared : Bool}

theorem isSingleton_known (h : s.singletons[m]? = some shared) :
    isSingleton p m s = .ok shared s := by
  rw [isSingleton, get_bind_run, h]
  rfl

theorem isSingleton_new {decl : MethodDecl} {summary : Summary}
    (h : s.singletons[m]? = none) (hdecl : p.scene.method m = .ok decl)
    (hsummary : s.summaries[m]? = some summary) :
    isSingleton p m s = .ok (decl.isStatic && summary.sharesResult) { s with
      singletons := s.singletons.insert m (decl.isStatic && summary.sharesResult) } := by
  rw [isSingleton, get_bind_run, h]
  refine bind_eq_ok.2 ⟨decl, s, ?_, ?_⟩
  · rw [hdecl]
    rfl
  · rw [get_bind_run, hsummary]
    rfl

end Run

/-- The recorded answers are those that the summaries give. -/
theorem State.Sane.singleton_iff {p : Problem} {s : State} {m : MethodId} {shared : Bool}
    (hs : s.Sane p) (h : s.singletons[m]? = some shared) : ∃ decl summary,
      p.scene.method m = .ok decl ∧ s.summaries[m]? = some summary ∧
        (shared = true ↔ decl.isStatic = true ∧ summary.HandsOut) := by
  obtain ⟨decl, summary, hdecl, hsummary, rfl⟩ := hs.recorded.singletons m shared h
  refine ⟨decl, summary, hdecl, hsummary, ?_⟩
  rw [Bool.and_eq_true, Summary.sharesResult_iff]

/-- In every state of an analysis that has the summary of a method and was not asked about it yet, a
question is answered by what the body keeps and returns. All later states give the same answer, and
so an analysis ends with the answers that the summaries give. -/
theorem Problem.isSingleton_iff_handsOut (p : Problem) :
    (∀ s, (State.initial p.settings).LeadsTo p s → ∀ (m : MethodId) summary,
      s.summaries[m]? = some summary → s.singletons[m]? = none →
      ∃ decl shared t, p.scene.method m = .ok decl ∧ Run.isSingleton p m s = .ok shared t ∧
        (shared = true ↔ decl.isStatic = true ∧ summary.HandsOut) ∧
        (summary.statics.isEmpty = true → shared = false) ∧ s.LeadsTo p t ∧
        ∀ u, t.LeadsTo p u → Run.isSingleton p m u = .ok shared u) ∧
    ∀ fuel s, p.analyze fuel = .ok () s → (State.initial p.settings).LeadsTo p s ∧
      ∀ (m : MethodId) shared, s.singletons[m]? = some shared → ∃ decl summary,
        p.scene.method m = .ok decl ∧ s.summaries[m]? = some summary ∧
          (shared = true ↔ decl.isStatic = true ∧ summary.HandsOut) := by
  constructor
  · intro s hs m summary hsummary hnew
    have hsane := sane_of_leadsTo hs
    have hmem : m ∈ s.summaries := Std.TreeMap.mem_iff_isSome_getElem?.2 (by simp [hsummary])
    obtain ⟨decl, hdecl, -⟩ := hsane.recorded.summaries m hmem
    have hasked := Run.isSingleton_new hnew hdecl hsummary
    have hstep : s.LeadsTo p { s with
        singletons := s.singletons.insert m (decl.isStatic && summary.sharesResult) } :=
      .single (.turn (w := .dispatch) (.step (.records (.singleton hdecl hsummary))))
    have hknown : (s.singletons.insert m (decl.isStatic && summary.sharesResult))[m]? =
        some (decl.isStatic && summary.sharesResult) := by
      rw [getElem?_insert, if_pos rfl]
    refine ⟨decl, _, _, hdecl, hasked, ?_, fun hempty => ?_, hstep, fun u hu => ?_⟩
    · rw [Bool.and_eq_true, Summary.sharesResult_iff]
    · have hno := mt Summary.sharesResult_iff.1 (Summary.not_handsOut_of_isEmpty hempty)
      rw [Bool.eq_false_of_not_eq_true hno, Bool.and_false]
    · exact Run.isSingleton_known (hu.singletons (hstep.sane hsane) hknown)
  · intro fuel s h
    have hs := (reachable_of_analyze h).leadsTo
    exact ⟨hs, fun m shared hm => (sane_of_leadsTo hs).singleton_iff hm⟩

/-- `x = new Main; Main.it = x; y = Main.it; Main.it = y; return y` -/
def sharedObject : Problem where
  scene := {
    files := #[⟨⟨0⟩, "main", ⟨0⟩, ⟨0⟩, ∅, ∅⟩]
    classes := #[⟨⟨0⟩, "Main", none, ⟨0⟩, none, false, ∅⟩]
    methods := #[plainMethod 0 "main" {
      locals := ((∅ : NameMap ValueId).insert "x" ⟨0⟩).insert "y" ⟨3⟩
      stmts := #[⟨0⟩, ⟨1⟩, ⟨2⟩, ⟨3⟩, ⟨4⟩] }]
    stmts := #[⟨⟨0⟩, .assign ⟨0⟩ ⟨1⟩⟩, ⟨⟨0⟩, .assign ⟨2⟩ ⟨0⟩⟩, ⟨⟨0⟩, .assign ⟨3⟩ ⟨2⟩⟩,
      ⟨⟨0⟩, .assign ⟨2⟩ ⟨3⟩⟩, ⟨⟨0⟩, .ret ⟨3⟩⟩]
    values := #[.var "x" .any, .new "Main", .staticField ⟨"Main", "it"⟩, .var "y" .any] }

/-- Nobody has called the entry of `sharedObject`, so the question is new at the end; asked then, it
is answered, and the answer stays. -/
theorem isSingleton_sharedObject : ∃ s summary decl t, sharedObject.analyze 3 = .ok () s ∧
    s.summaries[(⟨0⟩ : MethodId)]? = some summary ∧ s.singletons[(⟨0⟩ : MethodId)]? = none ∧
    Run.isSingleton sharedObject ⟨0⟩ s = .ok true t ∧
    sharedObject.scene.method ⟨0⟩ = .ok decl ∧ decl.isStatic = true ∧ summary.HandsOut ∧
    Run.isSingleton sharedObject ⟨0⟩ t = .ok true t := by
  obtain ⟨_, s, h, hs⟩ := exists_of_endsWith (r := sharedObject.analyze 3)
    (q := fun _ s => (s.summaries[(⟨0⟩ : MethodId)]?).isSome &&
      (s.singletons[(⟨0⟩ : MethodId)]?).isNone &&
      endsWith (Run.isSingleton sharedObject ⟨0⟩ s) fun shared _ => shared) (by decide +kernel)
  simp only [Bool.and_eq_true, Option.isNone_iff_eq_none, Option.isSome_iff_exists] at hs
  obtain ⟨⟨⟨summary, hsummary⟩, hnew⟩, hasked⟩ := hs
  obtain ⟨hanswers, hends⟩ := sharedObject.isSingleton_iff_handsOut
  obtain ⟨decl, shared, t, hdecl, hrun, hiff, -, -, hlater⟩ :=
    hanswers s (hends 3 s h).1 ⟨0⟩ summary hsummary hnew
  obtain rfl : shared = true := by
    rw [hrun] at hasked
    exact hasked
  obtain ⟨hstatic, hout⟩ := hiff.1 rfl
  exact ⟨s, summary, decl, t, h, hsummary, hnew, hrun, hdecl, hstatic, hout, hlater t .refl⟩

end PointsTo
