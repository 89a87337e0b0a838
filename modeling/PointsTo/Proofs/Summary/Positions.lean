import PointsTo.Proofs.Call.Positions
import PointsTo.Proofs.Summary.Growth

/-! Every position that the survey of a method stores exists, and a survey of a method of a well-formed
scene does not fail. Whatever the method, it takes nothing away. -/
namespace PointsTo

section Refs

variable (P : Positions)

/-! What holds of every position that a summary or a capture stores. -/

structure LocalEdge.Refs (e : LocalEdge) : Prop where
  source : P .value e.source
  target : P .value e.target
  stmt : P .stmt e.stmt

structure FieldAllocation.Refs (a : FieldAllocation) : Prop where
  object : P .value a.object
  field : P .value a.field
  stmt : P .stmt a.stmt

structure Summary.Refs (s : Summary) : Prop where
  method : P .method s.method
  edges : ∀ e ∈ s.edges, e.Refs P
  fieldAllocations : ∀ a ∈ s.fieldAllocations, a.Refs P
  statics : ∀ v ∈ s.statics, P .value v
  returned : ∀ v ∈ s.returned, P .value v
  staticCalls : ∀ i ∈ s.staticCalls, P .site i
  dynamicCalls : ∀ i ∈ s.dynamicCalls, P .site i
  unknownCalls : ∀ i ∈ s.unknownCalls, P .site i

structure Capture.Refs (c : Capture) : Prop where
  owner : P .method c.owner
  source : P .value c.source
  target : P .value c.target

variable {P} {Q : Positions} (hPQ : ∀ t r, P t r → Q t r)

include hPQ

theorem Summary.Refs.mono {s : Summary} (h : s.Refs P) : s.Refs Q where
  method := hPQ _ _ h.method
  edges e he :=
    have he := h.edges e he
    ⟨hPQ _ _ he.source, hPQ _ _ he.target, hPQ _ _ he.stmt⟩
  fieldAllocations a ha :=
    have ha := h.fieldAllocations a ha
    ⟨hPQ _ _ ha.object, hPQ _ _ ha.field, hPQ _ _ ha.stmt⟩
  statics v hv := hPQ _ _ (h.statics v hv)
  returned v hv := hPQ _ _ (h.returned v hv)
  staticCalls i hi := hPQ _ _ (h.staticCalls i hi)
  dynamicCalls i hi := hPQ _ _ (h.dynamicCalls i hi)
  unknownCalls i hi := hPQ _ _ (h.unknownCalls i hi)

theorem Capture.Refs.mono {c : Capture} (h : c.Refs P) : c.Refs Q :=
  ⟨hPQ _ _ h.owner, hPQ _ _ h.source, hPQ _ _ h.target⟩

end Refs

theorem Summary.refs_empty {P : Positions} {m : MethodId} (hm : P .method m) :
    Summary.Refs P { method := m } :=
  ⟨hm, by simp, by simp, by simp, by simp, by simp, by simp, by simp⟩

theorem Capture.Refs.add {P : Positions} {c : Capture} {cs : List Capture} (hc : c.Refs P)
    (hcs : ∀ d ∈ cs, d.Refs P) : ∀ d ∈ Capture.add c cs, d.Refs P := by
  induction cs with
  | nil => simpa [Capture.add] using hc
  | cons d rest ih =>
    have hrest := fun e he => hcs e (.tail _ he)
    have hd := hcs d (.head _)
    unfold Capture.add
    split
    · exact List.forall_mem_cons.2 ⟨⟨hd.owner, hd.source, hd.target⟩, hrest⟩
    · exact List.forall_mem_cons.2 ⟨hd, ih hrest⟩

namespace Survey

/-- Every position that a survey stores exists. -/
structure InRange (scene : Scene) (k : Table → Nat) (v : Survey) : Prop where
  summary : v.summary.Refs (scene.Within (v.calls.sites.sizes k))
  captures : ∀ c ∈ v.captures, c.Refs (scene.Within (v.calls.sites.sizes k))
  firsts : ∀ r ∈ v.firsts, scene.Sure r.2
  calls : v.calls.InRange scene k
  log : NoUnknownContext v.log

/-- What surveying keeps. It fails only if the scene is not well-formed. -/
def guard (scene : Scene) (k : Table → Nat) : Guard Fault Survey where
  Holds := InRange scene k
  Later v v' := v.calls.sites.Widens v'.calls.sites
  Fails _ v := ¬ scene.WellFormed ∧ v.InRange scene k
  refl _ := Nat.le_refl _
  trans h h' := Nat.le_trans h h'

/-- What surveying keeps, also where it fails. That positions exist is asked for in the `strict` case
only. -/
def watch (scene : Scene) (k : Table → Nat) (strict : Prop) : Guard Fault Survey :=
  (growth scene).both (guard scene k) strict

variable {scene : Scene} {k : Table → Nat} {strict : Prop}

theorem watch_record {V : Prop} {v w : Survey}
    (hv : (watch scene k strict).Holds v) (h : w.summary.Ordered scene) (hcalls : w.calls = v.calls)
    (hV : V) (hw : strict → v.InRange scene k → w.InRange scene k) :
    (watch scene k strict).Holds w ∧ (watch scene k strict).Later v w ∧ V := by
  have hextends : v.calls.Extends w.calls := hcalls ▸ .refl _
  have hwidens : v.calls.sites.Widens w.calls.sites := hcalls ▸ Nat.le_refl _
  exact ⟨⟨h, fun h => hw h (hv.2 h)⟩, ⟨hextends, fun _ => hwidens⟩, hV⟩

end Survey

namespace Surveying
open Survey

variable {scene : Scene} {k : Table → Nat} {strict : Prop} {v : Survey} {α β : Type} {m : MethodId}
  {x y : ValueId} {i : StmtId} {writes explains : Bool} {q : Except Fault α} {Q V : α → Prop}

theorem watch_scan {q : Scan α} (h : ∀ log, Ensures q log fun a _ => V a)
    (h' : strict → ∀ log, (Scan.guard scene).Safe log q fun _ a => Q a) :
    (watch scene k strict).Safe v (scan q) fun w a => w.calls = v.calls ∧ V a ∧ (strict → Q a) := by
  intro hv
  have hq := (h v.log).1
  have hout := fun hstrict => h' hstrict v.log (hv.2 hstrict).log
  unfold scan
  revert hq hout
  cases q v.log with
  | ok a log =>
    intro hq hout
    have hout : strict → NoUnknownContext log ∧ Q a := fun hstrict => by
      cases hout hstrict with
      | ok hlog _ ha => exact ⟨hlog, ha⟩
    have hstep := watch_record (w := { v with log }) hv hv.1 rfl trivial fun h hv =>
      { hv with log := (hout h).1 }
    exact .ok hstep.1 hstep.2.1 ⟨rfl, hq rfl, fun h => (hout h).2⟩
  | error e log =>
    refine fun _ hout => .error ((watch scene k strict).refl v) ⟨trivial, fun h => ?_⟩
    cases hout h with
    | error _ he => exact ⟨he.1, { hv.2 h with log := he.2 }⟩

theorem watch_lift (hq : strict → scene.WellFormed → Answers q Q) :
    (watch scene k strict).Safe v (liftM q : Surveying α) fun w a =>
      w = v ∧ q = .ok a ∧ (strict ∧ scene.WellFormed → Q a) :=
  .of_answers (g := id) (fun h => hq h.1 h.2) (by cases q <;> rfl) fun _ h hv =>
    ⟨trivial, fun hstrict => ⟨fun hp => h ⟨hstrict, hp⟩, hv.2 hstrict⟩⟩

theorem watch_lift_bind {f : α → Surveying β} {W : Survey → β → Prop}
    (hq : strict → scene.WellFormed → Answers q Q)
    (hf : ∀ a, q = .ok a → (strict → scene.WellFormed → Q a) →
      (watch scene k strict).Safe v (f a) W) :
    (watch scene k strict).Safe v (liftM q >>= f) W := by
  refine .bind (watch_lift hq) ?_
  rintro _ a - ⟨rfl, ha, hQ⟩
  exact hf a ha fun h hp => hQ ⟨h, hp⟩

theorem watch_note {n : Notice} (hn : ∀ c, n ≠ .unknownContext c) :
    (watch scene k strict).Runs v (scan (Scan.note n)) :=
  (watch_scan (V := fun _ => True) (fun _ => ensures_of_fault fun _ _ _ => trivial)
    fun _ _ => Scan.safe_note hn).runs

theorem watch_modifySummary {f : Summary → Summary}
    (hf : v.summary.Ordered scene → (f v.summary).Ordered scene)
    (hf' : strict → v.summary.Refs (scene.Within (v.calls.sites.sizes k)) →
      (f v.summary).Refs (scene.Within (v.calls.sites.sizes k))) :
    (watch scene k strict).Runs v (modifySummary f) :=
  .modify fun hv => watch_record hv (hf hv.1) rfl trivial fun h hv =>
    { hv with summary := hf' h hv.summary }

theorem watch_first {p : Place} (hx : strict → scene.Sure x) :
    (watch scene k strict).Safe v (first p x) fun _ w => strict → scene.Sure w := by
  refine .modifyGet fun hv => ?_
  have hfirst : strict → scene.Sure ((v.firsts.lookup p).getD x) := fun h =>
    getD_of_forall (R := fun w => scene.Sure w)
      (fun w hw => (hv.2 h).firsts (p, w) (mem_of_lookup hw)) (hx h)
  refine watch_record hv ⟨hv.1.edges, hv.1.fieldAllocations⟩ rfl hfirst fun h hv => { hv with
    summary := { hv.summary with statics := forall_mem_insert hv.summary.statics (hfirst h) }
    firsts := ?_ }
  dsimp only
  split
  · exact hv.firsts
  · exact List.forall_mem_cons.2 ⟨hx h, hv.firsts⟩

section Method

variable (hm : strict → scene.Sure m)
include hm

theorem watch_capture (hx : strict → scene.Sure x) :
    (watch scene k strict).Runs v (capture scene m x writes) := by
  refine watch_lift_bind (fun h hp => hp.value (hx h hp)) fun value _ _ => ?_
  split
  · exact .pure trivial
  refine watch_lift_bind (fun h hp => hp.isDeclaredIn (hm h hp)) fun declared _ _ => ?_
  split
  · exact .pure trivial
  split
  · exact .pure trivial
  refine .bind (watch_scan (V := fun _ => True) (fun _ => ensures_of_fault fun _ _ _ => trivial)
    fun h _ => Scene.safe_resolveLocal (hm h) (hx h)) fun w r? _ hr? => ?_
  cases r? with
  | some r =>
    obtain ⟨owner, source⟩ := r
    refine .modify fun hw => watch_record hw hw.1 rfl trivial fun h hw => { hw with captures := ?_ }
    have hr := hr?.2.2 h
    exact Capture.Refs.add ⟨fun hp => (hr hp _ rfl).1, fun hp => (hr hp _ rfl).2, hx h⟩ hw.captures
  | none =>
    refine watch_lift_bind (fun h hp => hp.text (hx h hp)) fun name _ _ => ?_
    exact watch_lift_bind (fun h hp => hp.method (hm h hp)) fun decl _ _ => watch_note nofun

theorem watch_operand (hx : strict → scene.Sure x) :
    (watch scene k strict).Safe v (operand scene m x writes) fun _ w => strict → scene.Sure w := by
  refine watch_lift_bind (fun h hp => hp.value (hx h hp)) fun value _ hvalue => ?_
  cases value with
  | var name type => exact .next (watch_capture hm hx) fun _ _ _ => .pure hx
  | field base target =>
    refine .next (watch_capture hm fun h hp => (hvalue h hp).operands base (.head _)) fun _ _ _ => ?_
    refine watch_lift_bind (fun h hp => hp.place? (hx h hp)) fun p? _ _ => ?_
    split
    · split
      · exact watch_first hx
      · exact .pure hx
    · exact .pure hx
  | element base index =>
    refine .next (watch_capture hm fun h hp => (hvalue h hp).operands base (.head _)) fun _ _ _ => ?_
    exact .pure hx
  | staticField target => exact watch_first hx
  | _ => exact .pure hx

variable (hi : strict → scene.Sure i)
include hi

theorem watch_addDynamicCall {signature : Signature} {args : List ValueId}
    {prototype : Option MethodId} (hx : strict → scene.Sure x)
    (hargs : ∀ y ∈ args, strict → scene.Sure y)
    (hprototype : ∀ n ∈ prototype, strict → scene.Sure n) :
    (watch scene k strict).Runs v (addDynamicCall scene m i signature x args prototype) := by
  refine watch_lift_bind (fun h hp => hp.stmt (hi h hp)) fun stmt _ hstmt => ?_
  refine .bind (V := fun w site => strict → site.index < w.calls.sites.sites.size)
    (.modifyGet fun hv => ?_) fun w site _ hsite => ?_
  · let t := (v.calls.sites.addDynamic (some i) signature (some (args.map CallArg.value)) stmt.target?
      (some (.value x)) m prototype).2
    have hw : v.calls.sites.Widens t := SiteTable.widens_withSite _
    have hsites : strict → t.InRange scene k := fun h => by
      refine SiteTable.InRange.addDynamic ?_ ?_ (fun y hy hp => (hstmt h hp).target? y hy) (hm h)
        (hv.2 h).calls.sites ?_ fun n hn => hprototype n hn h
      · rintro _ ⟨⟩
        exact hi h
      · rintro _ ⟨⟩ a ha
        obtain ⟨y, hy, rfl⟩ := List.mem_map.1 ha
        exact hargs y hy h
      · rintro _ ⟨⟩
        exact hx h
    refine ⟨⟨hv.1, fun h => ?_⟩, ⟨CallGraph.extends_sites SiteTable.addDynamic_grows
      v.calls.stmtSites, fun _ => hw⟩, fun _ => by simp [SiteTable.addDynamic, SiteTable.nextId]⟩
    have hv := hv.2 h
    exact ⟨hv.summary.mono hw.within, fun c hc => (hv.captures c hc).mono hw.within, hv.firsts,
      hv.calls.onSites hw (hsites h), hv.log⟩
  · split
    · exact watch_modifySummary (fun h => ⟨h.edges, h.fieldAllocations⟩) fun hstrict h =>
        { h with unknownCalls := Array.forall_mem_push.2 ⟨hsite hstrict, h.unknownCalls⟩ }
    · exact watch_modifySummary (fun h => ⟨h.edges, h.fieldAllocations⟩) fun hstrict h =>
        { h with dynamicCalls := Array.forall_mem_push.2 ⟨hsite hstrict, h.dynamicCalls⟩ }

theorem watch_call (hx : strict → scene.Sure x) :
    (watch scene k strict).Runs v (call scene m i x) := by
  refine watch_lift_bind (fun h hp => hp.value (hx h hp)) fun value _ hvalue => ?_
  refine .next (.forM fun _ y _ hy => ?_) fun v₁ _ _ => .get_bind (.of_holds fun hv₁ => ?_)
  · exact (watch_operand hm fun h hp => (hvalue h hp).operands y hy).discard
  refine .bind (watch_scan (fun _ => CallGraph.ensures_resolveStmt_extends) fun h _ =>
    CallGraph.safe_resolveStmt (hv₁.2 h).calls (hi h) (hm h)) ?_
  rintro v₂ ⟨sites, calls⟩ - ⟨hsame, hextends, hcalls⟩
  rw [← hsame] at hextends hcalls
  refine .bind (V := fun w _ => strict → ∀ j ∈ sites, j.index < w.calls.sites.sites.size)
    (.modify fun hv₂ => ?_) fun v₃ _ _ hsites => ?_
  · refine ⟨⟨hv₂.1, fun h => ?_⟩, ⟨hextends, fun h => (hcalls h).2.1⟩, fun h => (hcalls h).2.2⟩
    obtain ⟨hcalls, hw, -⟩ := hcalls h
    have hv₂ := hv₂.2 h
    exact ⟨hv₂.summary.mono hw.within, fun c hc => (hv₂.captures c hc).mono hw.within, hv₂.firsts,
      hcalls, hv₂.log⟩
  split
  · refine .last (watch_modifySummary (fun h => ⟨h.edges, h.fieldAllocations⟩) fun hstrict h =>
      { h with staticCalls := fun j hj => ?_ })
    rcases Array.mem_append.1 hj with hj | hj
    · exact h.staticCalls j hj
    · exact hsites hstrict j (by simpa using hj)
  cases value with
  | instanceCall base target args =>
    exact watch_addDynamicCall hm hi (fun h hp => (hvalue h hp).operands base (.head _))
      (fun y hy h hp => (hvalue h hp).operands y (.tail _ hy)) fun n hn _ hp => hp.methodOf? hn
  | pointerCall pointer args =>
    exact watch_addDynamicCall hm hi (fun h hp => (hvalue h hp).operands pointer (.head _))
      (fun y hy h hp => (hvalue h hp).operands y (.tail _ hy)) nofun
  | staticCall target args =>
    exact watch_lift_bind (fun h hp => hp.method (hm h hp)) fun decl _ _ => watch_note nofun
  | _ => exact .pure trivial

/-- Only allocations are taken for some. -/
theorem watch_assign (hx : strict → scene.Sure x) (hy : strict → scene.Sure y) :
    (watch scene k strict).Runs v (assign scene explains m i x y) := by
  refine watch_lift_bind (fun h hp => hp.value (hy h hp)) fun value hvalue _ => ?_
  split
  · exact .pure trivial
  · exact .pure trivial
  split
  · exact .next (watch_operand hm hx) fun _ _ _ => watch_call hm hi hy
  refine .bind (watch_operand hm hx) fun v₁ target _ htarget => ?_
  split
  · next hallocation =>
    have hobject : (Location.value y).IsObject scene := ⟨value, hvalue, hallocation⟩
    refine watch_lift_bind (fun h hp => hp.value (htarget h hp)) fun a _ _ => ?_
    split
    · exact (watch_lift fun h hp => hp.leaveOut (by simpa using htarget h hp)).runs
    refine watch_lift_bind (fun h hp => hp.isHeapRef (htarget h hp)) fun heap _ _ => ?_
    split
    · refine watch_modifySummary (fun h => ⟨h.edges, ?_⟩) fun hs h => { h with fieldAllocations := ?_ }
      · exact Array.forall_mem_push.2 ⟨hobject, h.fieldAllocations⟩
      · exact Array.forall_mem_push.2 ⟨⟨hy hs, htarget hs, hi hs⟩, h.fieldAllocations⟩
    · refine watch_modifySummary (fun h => ⟨?_, h.fieldAllocations⟩) fun hs h => { h with edges := ?_ }
      · exact Array.forall_mem_push.2 ⟨fun _ => hobject, h.edges⟩
      · exact Array.forall_mem_push.2 ⟨⟨hy hs, htarget hs, hi hs⟩, h.edges⟩
  split
  · refine .bind (watch_operand hm hy) fun v₂ source _ hsource => ?_
    refine watch_lift_bind (fun h hp => hp.isHeapRef (htarget h hp)) fun intoHeap _ _ => ?_
    refine watch_lift_bind (fun h hp => hp.isHeapRef (hsource h hp)) fun fromHeap _ _ => ?_
    split
    · next kind hkind =>
      have hcopy : kind ≠ .address := by
        rintro rfl
        cases intoHeap <;> cases fromHeap <;> cases hkind
      refine watch_modifySummary (fun h => ⟨?_, h.fieldAllocations⟩) fun hs h => { h with edges := ?_ }
      · exact Array.forall_mem_push.2 ⟨fun h => absurd h hcopy, h.edges⟩
      · exact Array.forall_mem_push.2 ⟨⟨hsource hs, htarget hs, hi hs⟩, h.edges⟩
    · refine (watch_lift fun h hp => hp.leaveOut fun z hz => ?_).runs
      rcases List.mem_cons.1 hz with rfl | hz
      · exact htarget h hp
      · exact List.mem_singleton.1 hz ▸ hsource h hp
  · exact .pure trivial

theorem watch_statement : (watch scene k strict).Runs v (statement scene explains m i) := by
  refine watch_lift_bind (fun h hp => hp.stmt (hi h hp)) fun stmt _ hstmt => ?_
  obtain ⟨owner, kind⟩ := stmt
  cases kind with
  | assign x y =>
    exact watch_assign hm hi (fun h hp => (hstmt h hp).operands x (.head _))
      fun h hp => (hstmt h hp).operands y (.tail _ (.head _))
  | call expr => exact watch_call hm hi fun h hp => (hstmt h hp).operands expr (.head _)
  | ret x =>
    refine .bind (watch_operand hm fun h hp => (hstmt h hp).operands x (.head _)) fun _ w _ hw => ?_
    exact watch_modifySummary (fun h => ⟨h.edges, h.fieldAllocations⟩) fun hstrict h =>
      { h with returned := Array.forall_mem_push.2 ⟨hw hstrict, h.returned⟩ }
  | retVoid => exact .pure trivial
  | nop => exact .pure trivial

omit hi

/-- The survey of a whole method. -/
theorem watch_body : (watch scene k strict).Runs v (body scene explains m) := by
  refine watch_lift_bind (fun h hp => hp.method (hm h hp)) fun decl _ hdecl => ?_
  exact .forM fun _ i _ hi => watch_statement hm fun h hp => (hdecl h hp).stmts i hi

end Method

end Surveying

/-- The survey of a method next to the call sites that are known. -/
theorem Survey.outcome_ofMethod {scene : Scene} {k : Table → Nat} {strict : Prop} {explains : Bool}
    {m : MethodId} {calls : CallGraph} {log : Array Notice} (hm : strict → scene.Sure m)
    (hcalls : strict → calls.InRange scene k) (hlog : strict → NoUnknownContext log) :
    (watch scene k strict).Outcome { summary := { method := m }, calls, log } (fun _ _ => True)
      (ofMethod scene explains m calls log) := by
  refine Surveying.watch_body hm ⟨⟨by simp, by simp⟩, fun h => ?_⟩
  exact ⟨Summary.refs_empty (hm h), by simp, by simp, hcalls h, hlog h⟩

end PointsTo
