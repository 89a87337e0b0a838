import PointsTo.Proofs.Flow.Lookups
import PointsTo.Proofs.Scene.Check
import PointsTo.Proofs.Summary.Positions
import PointsTo.Proofs.Summary.Statements

/-! The summary of a method says what the statements of its body say, one after the other. -/
namespace PointsTo

namespace Survey

/-- The survey knows the first references among the operands that have been met. -/
structure Notes (scene : Scene) (seen : List ValueId) (v : Survey) : Prop where
  firsts : ∀ p, v.firsts.lookup p = scene.firstOf? seen p
  statics : ∀ x, x ∈ v.summary.statics ↔ ∃ p, scene.firstOf? seen p = some x

/-- The survey has gone on to meet some operands, and adds nothing for them. -/
structure Meets (scene : Scene) (seen met : List ValueId) (v v' : Survey) : Prop where
  notes : v'.Notes scene (seen ++ met)
  calls : v'.calls = v.calls
  summary : v'.summary = { v.summary with statics := v'.summary.statics }

/-- The survey has gone on to meet some operands and to add what a statement says. -/
structure Gains (scene : Scene) (seen met : List ValueId) (a : Contribution) (v v' : Survey) :
    Prop where
  notes : v'.Notes scene (seen ++ met)
  calls : v.calls.Grows scene v'.calls
  summary : v'.summary = { v.summary.extend a with statics := v'.summary.statics }

variable {scene : Scene} {seen met met' : List ValueId} {a : Contribution} {v v₁ v' : Survey}

theorem Notes.skip (h : v.Notes scene seen) {x : ValueId} (hx : scene.shared? x = none) :
    v.Notes scene (seen ++ [x]) where
  firsts p := (h.firsts p).trans (Scene.firstOf?_skip hx).symm
  statics y := by simp only [h.statics, Scene.firstOf?_skip hx]

theorem Meets.refl (h : v.Notes scene seen) : v.Meets scene seen [] v :=
  ⟨(List.append_nil seen).symm ▸ h, rfl, rfl⟩

theorem Meets.trans (h : v.Meets scene seen met v₁) (h' : v₁.Meets scene (seen ++ met) met' v') :
    v.Meets scene seen (met ++ met') v' where
  notes := List.append_assoc .. ▸ h'.notes
  calls := h'.calls.trans h.calls
  summary := by rw [h'.summary, h.summary]

theorem Meets.gains (h : v.Meets scene seen met v₁)
    (h' : v₁.Gains scene (seen ++ met) met' a v') : v.Gains scene seen (met ++ met') a v' where
  notes := List.append_assoc .. ▸ h'.notes
  calls := h.calls ▸ h'.calls
  summary := by rw [h'.summary, h.summary]; rfl

theorem Notes.gains (h : v.Notes scene seen) (hfirsts : v'.firsts = v.firsts)
    (hcalls : v.calls.Grows scene v'.calls) (hsummary : v'.summary = v.summary.extend a) :
    v.Gains scene seen [] a v' where
  notes := by
    have hstatics : v'.summary.statics = v.summary.statics := by rw [hsummary]; rfl
    rw [List.append_nil]
    exact ⟨fun p => hfirsts ▸ h.firsts p, fun x => hstatics ▸ h.statics x⟩
  calls := hcalls
  summary := by rw [hsummary]

theorem Meets.extends (h : v.Meets scene seen met v₁) (a : Contribution) :
    v.Gains scene seen met a { v₁ with summary := v₁.summary.extend a } where
  notes := ⟨h.notes.firsts, h.notes.statics⟩
  calls := h.calls ▸ .refl _
  summary := by rw [h.summary]; rfl

theorem Meets.gains_nil (h : v.Meets scene seen met v') : v.Gains scene seen met {} v' where
  notes := h.notes
  calls := h.calls ▸ .refl _
  summary := by rw [h.summary]; simp [Summary.extend]

end Survey

namespace Surveying
open Survey

variable {scene : Scene} {m : MethodId} {i : StmtId} {x : ValueId} {v : Survey} {writes : Bool}
  {seen : List ValueId} {α β : Type} {q : Except Fault α}

theorem ensures_lift_bind {f : α → Surveying β} {R : β → Survey → Prop}
    (h : ∀ a, q = .ok a → Ensures (f a) v R) : Ensures (liftM q >>= f) v R := by
  cases q with
  | ok a => exact h a rfl
  | error e => exact ensures_of_fault fun b v' hb => by cases hb

theorem ensures_lift : Ensures (liftM q : Surveying α) v fun a v' => q = .ok a ∧ v' = v := by
  refine ensures_of_fault fun a v' h => ?_
  cases q with
  | error e => cases h
  | ok b =>
    cases h
    exact ⟨rfl, rfl⟩

theorem ensures_capture : Ensures (capture scene m x writes) v fun _ v' =>
    ∃ captures log, v' = { v with captures, log } := by
  refine ensures_lift_bind fun value _ => ?_
  split
  · exact ensures_pure ⟨_, _, rfl⟩
  refine ensures_lift_bind fun declared _ => ?_
  split
  · exact ensures_pure ⟨_, _, rfl⟩
  split
  · exact ensures_pure ⟨_, _, rfl⟩
  refine ensures_bind (ensures_scan (P := fun _ => True) ?_) ?_
  · exact ensures_of_fault fun _ _ _ => trivial
  rintro found _ ⟨-, log, rfl⟩
  split
  · exact ensures_modify ⟨_, _, rfl⟩
  · refine ensures_lift_bind fun name _ => ensures_lift_bind fun decl _ => ?_
    refine (ensures_scan (P := fun _ => True) ?_).mono ?_
    · exact ensures_of_fault fun _ _ _ => trivial
    · rintro _ _ ⟨-, log, rfl⟩
      exact ⟨_, _, rfl⟩

/-- The first reference to a place stands for the later ones. -/
theorem ensures_first {p : Place} (hv : v.Notes scene seen) (hx : scene.shared? x = some p) :
    Ensures (first p x) v fun y v' =>
      y = scene.standIn (seen ++ [x]) x ∧ v.Meets scene seen [x] v' := by
  have hstand : scene.standIn (seen ++ [x]) x = (scene.firstOf? seen p).getD x := by
    rw [Scene.standIn, hx, Option.bind_some, Scene.firstOf?_snoc hx, if_pos rfl]
    cases scene.firstOf? seen p <;> rfl
  refine ensures_modifyGet ⟨?_, ⟨⟨fun q => ?_, fun y => ?_⟩, rfl, rfl⟩⟩
  · rw [hv.firsts, hstand]
  · rw [Scene.firstOf?_snoc hx, ← hv.firsts]
    dsimp only
    by_cases hq : p = q
    · subst hq
      cases hp : v.firsts.lookup p <;> simp [hp]
    · have hne : (q == p) = false := beq_eq_false_iff_ne.2 (Ne.symm hq)
      split
      · simp
      · simp [List.lookup_cons, hne]
  · dsimp only
    rw [mem_insert, hv.statics, hv.firsts]
    simp only [Scene.firstOf?_snoc hx]
    constructor
    · rintro (rfl | ⟨q, hq⟩)
      · refine ⟨p, ?_⟩
        cases scene.firstOf? seen p <;> simp
      · exact ⟨q, by simp [hq]⟩
    · rintro ⟨q, hq⟩
      cases hold : scene.firstOf? seen q with
      | some w => exact .inr ⟨q, by simpa [hold] using hq⟩
      | none =>
        refine .inl ?_
        by_cases hpq : p = q
        · subst hpq
          simpa [hold] using hq
        · simp [hold, hpq] at hq

/-- A local or an element stands for itself. -/
theorem ensures_capture_return {y : ValueId} (hv : v.Notes scene seen)
    (hx : scene.shared? x = none) :
    Ensures (do capture scene m y writes; return x : Surveying ValueId) v fun z v' =>
      z = scene.standIn (seen ++ [x]) x ∧ v.Meets scene seen [x] v' := by
  refine ensures_bind ensures_capture ?_
  rintro _ _ ⟨captures, log, rfl⟩
  have hnotes : Notes scene seen { v with captures, log } := ⟨hv.firsts, hv.statics⟩
  exact ensures_pure ⟨(Scene.standIn_of_none hx).symm, hnotes.skip hx, rfl, rfl⟩

theorem ensures_operand (hv : v.Notes scene seen) :
    Ensures (operand scene m x writes) v fun y v' =>
      y = scene.standIn (seen ++ [x]) x ∧ v.Meets scene seen [x] v' := by
  refine ensures_lift_bind fun value hvalue => ?_
  split
  · exact ensures_capture_return hv (Scene.shared?_of_value hvalue nofun nofun)
  · refine ensures_bind ensures_capture ?_
    rintro _ _ ⟨captures, log, rfl⟩
    have hnotes : Notes scene seen { v with captures, log } := ⟨hv.firsts, hv.statics⟩
    refine ensures_lift_bind fun place? hplace => ?_
    have hskip (hnone : scene.shared? x = none) : Ensures (pure x : Surveying ValueId)
        { v with captures, log } fun y v' =>
          y = scene.standIn (seen ++ [x]) x ∧ v.Meets scene seen [x] v' :=
      ensures_pure ⟨(Scene.standIn_of_none hnone).symm, hnotes.skip hnone, rfl, rfl⟩
    split
    · next p =>
      split
      · next hshared =>
        refine (ensures_first hnotes (Scene.shared?_eq_some.2 ⟨hplace, hshared⟩)).mono ?_
        rintro y v' ⟨hy, hmeets⟩
        exact ⟨hy, hmeets.notes, hmeets.calls, hmeets.summary⟩
      · next hshared =>
        refine hskip (Scene.shared?_of_place? hplace ?_)
        rintro p ⟨⟩
        simpa using hshared
    · exact hskip (Scene.shared?_of_place? hplace nofun)
  · exact ensures_capture_return hv (Scene.shared?_of_value hvalue nofun nofun)
  · next target => exact ensures_first hv (Scene.shared?_of_staticField hvalue)
  · next hvar hfield helement hstatic =>
    have hnone : scene.shared? x = none := Scene.shared?_of_value hvalue hfield hstatic
    exact ensures_pure ⟨(Scene.standIn_of_none hnone).symm, hv.skip hnone, rfl, rfl⟩

theorem ensures_operands {operands : List ValueId} (hv : v.Notes scene seen) :
    Ensures (operands.forM fun x => discard (operand scene m x false)) v fun _ v' =>
      v.Meets scene seen operands v' := by
  refine (ensures_forM_rest (I := fun rest v' => ∃ met, operands = met ++ rest ∧
    v.Meets scene seen met v') operands ⟨[], rfl, .refl hv⟩ ?_).mono ?_
  · rintro x rest v₁ ⟨met, rfl, hmet⟩
    refine ensures_discard ((ensures_operand hmet.notes).mono fun _ v' h' => ?_)
    exact ⟨met ++ [x], by simp, hmet.trans h'.2⟩
  · rintro _ v' ⟨met, hmet, h'⟩
    rwa [hmet, List.append_nil]

section Calls

/-- The survey has filed a call, and nothing else. -/
def FilesCall (scene : Scene) (m : MethodId) (i : StmtId) (seen met : List ValueId)
    (v v' : Survey) : Prop :=
  ∃ static dynamic unknown, scene.Files m v'.calls i static dynamic unknown ∧
    v.Gains scene seen met
      { staticCalls := static, dynamicCalls := dynamic, unknownCalls := unknown } v'

/-- A call that waits for objects gets one new site. -/
theorem ensures_addDynamicCall {signature : Signature} {receiver : ValueId} {args : List ValueId}
    {prototype : Option MethodId} (hv : v.Notes scene seen) (hnone : scene.Resolves i [])
    (hawaits : ∀ stmt id, scene.stmt i = .ok stmt → scene.AwaitsAt i m id ⟨id, some i, signature,
      some (args.map .value), stmt.target?, some (.value receiver), m, prototype⟩) :
    Ensures (addDynamicCall scene m i signature receiver args prototype) v fun _ v' =>
      FilesCall scene m i seen [] v v' := by
  refine ensures_lift_bind fun stmt hstmt => ?_
  refine ensures_modifyGet_bind ?_
  have hgrows : v.calls.Grows scene { v.calls with sites := (v.calls.sites.addDynamic (some i)
      signature (some (args.map CallArg.value)) stmt.target? (some (.value receiver)) m
      prototype).2 } := CallGraph.grows_sites SiteTable.addDynamic_grows
  have hsite := hawaits stmt v.calls.sites.nextId hstmt
  split
  · next hunknown =>
    refine ensures_modify ⟨[], [], [v.calls.sites.nextId], ?_, ?_⟩
    · exact .unknown hnone hsite SiteTable.dynamic?_addDynamic hunknown
    · exact hv.gains rfl hgrows (by simp [Summary.extend, SiteTable.addDynamic])
  · next hknown =>
    refine ensures_modify ⟨[], [v.calls.sites.nextId], [], ?_, ?_⟩
    · exact .waiting hnone hsite SiteTable.dynamic?_addDynamic hknown
    · exact hv.gains rfl hgrows (by simp [Summary.extend, SiteTable.addDynamic])

theorem FilesCall.after {met met' : List ValueId} {v₁ v' : Survey}
    (h : FilesCall scene m i (seen ++ met) met' v₁ v') (hmeets : v.Meets scene seen met v₁) :
    FilesCall scene m i seen (met ++ met') v v' := by
  obtain ⟨static, dynamic, unknown, hfiles, hgains⟩ := h
  exact ⟨static, dynamic, unknown, hfiles, hmeets.gains hgains⟩

/-- A call is filed once sites have been added. -/
theorem FilesCall.grows {met : List ValueId} {v' : Survey} {log : Array Notice} {calls : CallGraph}
    (h : FilesCall scene m i seen met { v with log, calls } v')
    (hcalls : v.calls.Grows scene calls) : FilesCall scene m i seen met v v' := by
  obtain ⟨static, dynamic, unknown, hfiles, hgains⟩ := h
  exact ⟨static, dynamic, unknown, hfiles, hgains.notes, hcalls.trans hgains.calls, hgains.summary⟩

/-- The calls of a statement are filed once its operands have been met. -/
theorem ensures_call {expr : ValueId} (hstmt : scene.HasStmt m i)
    (hcall : scene.callOf? i = (scene.value expr).toOption.filter Value.isCall)
    (hv : v.Notes scene seen) (hlisted : v.calls.Listed scene) :
    Ensures (call scene m i expr) v fun _ v' =>
      FilesCall scene m i seen (scene.operandsOf expr) v v' := by
  refine ensures_lift_bind fun value hvalue => ?_
  rw [hvalue] at hcall
  rw [Scene.operandsOf_of_value hvalue]
  refine ensures_bind (ensures_operands hv) fun _ v₁ hmeets => ?_
  have hlisted₁ : v₁.calls.Listed scene := hmeets.calls ▸ hlisted
  refine ensures_get_bind (ensures_bind (ensures_scan
    (CallGraph.ensures_resolveStmt hlisted₁ hstmt)) ?_)
  rintro ⟨sites, calls⟩ _ ⟨⟨hgrows, ⟨contents, hc, hmap⟩, -, -⟩, log, rfl⟩
  dsimp only at hgrows hmap ⊢
  refine ensures_modify_bind ?_
  have hnotes : Notes scene (seen ++ value.operands) { v₁ with log, calls } :=
    ⟨hmeets.notes.firsts, hmeets.notes.statics⟩
  refine Ensures.mono (Q := fun _ v' => FilesCall scene m i (seen ++ value.operands) []
    { v₁ with log, calls } v') ?_ fun _ v' h' => ?_
  on_goal 2 =>
    have hafter := (h'.grows hgrows).after hmeets
    rwa [List.append_nil] at hafter
  split
  · next hsome =>
    have hne : contents ≠ [] := by
      rintro rfl
      rw [List.map_eq_nil_iff.1 hmap] at hsome
      cases hsome
    obtain ⟨value', hvalue'⟩ := Scene.exists_callOf?_of_resolves hc hne
    refine ensures_modify_bind (ensures_pure ?_)
    refine ⟨sites, [], [], .resolved hvalue' hc hne hmap, hnotes.gains rfl (.refl _) ?_⟩
    simp [Summary.extend]
  · next hempty =>
    obtain rfl : sites = [] := by simpa using hempty
    obtain rfl : contents = [] := List.map_eq_nil_iff.1 hmap.symm
    have hfiled (log' : Array Notice) (hfiles : scene.Files m calls i [] [] []) :
        FilesCall scene m i (seen ++ value.operands) [] { v₁ with log, calls }
          { v₁ with log := log', calls } :=
      ⟨[], [], [], hfiles, hnotes.gains rfl (.refl _) (by simp [Summary.extend])⟩
    split
    · exact ensures_addDynamicCall hnotes hc fun stmt id hstmt => .instance hstmt hcall
    · exact ensures_addDynamicCall hnotes hc fun stmt id hstmt => .pointer hstmt hcall
    · refine ensures_lift_bind fun decl _ => (ensures_scan (P := fun _ => True) ?_).mono ?_
      · exact ensures_of_fault fun _ _ _ => trivial
      · rintro _ _ ⟨-, log', rfl⟩
        exact hfiled log' (.lost hc hcall)
    · next hinstance hpointer hstatic =>
      refine ensures_pure (hfiled log (.noCall ?_))
      rw [hcall]
      cases value with
      | instanceCall base target args => exact absurd rfl (hinstance base target args)
      | pointerCall pointer args => exact absurd rfl (hpointer pointer args)
      | staticCall target args => exact absurd rfl (hstatic target args)
      | _ => rfl

end Calls

variable {scene : Scene} {m : MethodId} {i : StmtId} {v : Survey} {explains : Bool}
  {seen rest : List ValueId} {target source : ValueId}

/-- The survey has done what the statement `i` asks for, where the operands of the whole body are
those before it, its own and `rest`. -/
def Renders (scene : Scene) (m : MethodId) (i : StmtId) (seen rest : List ValueId)
    (v v' : Survey) : Prop :=
  ∃ a : Contribution,
    a.Of scene m (scene.standIn (seen ++ scene.mentions i ++ rest)) v'.calls i ∧
      v.Gains scene seen (scene.mentions i) a v'

theorem ensures_modifySummary {f : Summary → Summary} {a : Contribution}
    (h : v.summary.extend a = f v.summary) : Ensures (modifySummary f) v fun _ v' =>
      v' = { v with summary := v.summary.extend a } :=
  ensures_modify (by rw [h])

section Assign

variable {value : Value} {v₁ v' : Survey} (hk : scene.kindOf? i = some (.assign target source))
  (hvalue : scene.value source = .ok value) {edges : List LocalEdge}

include hk hvalue

/-- An assignment that is no call adds at most an edge or an allocation. -/
theorem renders_assign {fieldAllocations : List FieldAllocation} (hcall : value.isCall = false)
    (hedges : (scene.edgeOf? (scene.standIn (seen ++ scene.mentions i ++ rest)) i).toList = edges)
    (hallocations : (scene.allocationOf?
      (scene.standIn (seen ++ scene.mentions i ++ rest)) i).toList = fieldAllocations)
    (hgains : v.Gains scene seen (scene.mentions i) { edges, fieldAllocations } v') :
    Renders scene m i seen rest v v' := by
  refine ⟨_, ⟨hedges.symm, hallocations.symm, ?_, .noCall ?_⟩, hgains⟩
  · rw [Scene.returnOf?_assign _ hk]
    rfl
  · rw [Scene.callOf?_assign hk hvalue, hcall]
    rfl

theorem renders_nothing (hcall : value.isCall = false) (hallocation : value.isAllocation = false)
    (hpointer : value.isPointer = false) (h : v.Meets scene seen (scene.mentions i) v') :
    Renders scene m i seen rest v v' := by
  refine renders_assign hk hvalue hcall ?_ ?_ h.gains_nil
  · rw [Scene.edgeOf?_assign _ hk hvalue, hallocation, hpointer]
    rfl
  · rw [Scene.allocationOf?_assign _ hk hvalue, hallocation]
    rfl

theorem renders_call (hcall : value.isCall = true)
    (h : FilesCall scene m i seen (scene.mentions i) v v') : Renders scene m i seen rest v v' := by
  obtain ⟨static, dynamic, unknown, hfiles, hgains⟩ := h
  have hplain : value.isAllocation = false ∧ value.isPointer = false := by
    cases value <;> first | exact ⟨rfl, rfl⟩ | cases hcall
  refine ⟨_, ⟨?_, ?_, ?_, hfiles⟩, hgains⟩
  · rw [Scene.edgeOf?_assign _ hk hvalue, hplain.1, hplain.2]
    rfl
  · rw [Scene.allocationOf?_assign _ hk hvalue, hplain.1]
    rfl
  · rw [Scene.returnOf?_assign _ hk]
    rfl

section Allocation

variable (hallocation : value.isAllocation = true)

include hallocation

theorem mentions_allocation : scene.mentions i = [target] := by
  rw [Scene.mentions_assign hk hvalue]
  cases value <;> first | rfl | cases hallocation

/-- An allocation into anything but a pointer is left out, one into a part of a heap object is kept
as such, and any other one is an address edge. -/
theorem renders_allocation {edges : List LocalEdge}
    {fieldAllocations : List FieldAllocation} (hmeets : v.Meets scene seen [target] v₁)
    (hedges : (if scene.isA Value.isPointer target ∧ ¬ scene.throughHeap target then
      some ⟨source, scene.standIn (seen ++ [target]) target, .address, i⟩ else none).toList = edges)
    (hfields : (if scene.throughHeap target then
      some ⟨source, scene.standIn (seen ++ [target]) target, i⟩ else none).toList =
        fieldAllocations) :
    Renders scene m i seen rest v
      { v₁ with summary := v₁.summary.extend { edges, fieldAllocations } } := by
  have hmentions := mentions_allocation hk hvalue hallocation
  have hstand : scene.standIn (seen ++ scene.mentions i ++ rest) target =
      scene.standIn (seen ++ [target]) target := by
    rw [hmentions, Scene.standIn_append (by simp)]
  have hcall : value.isCall = false := by
    cases value <;> first | rfl | cases hallocation
  have hgains := hmeets.extends { edges, fieldAllocations }
  rw [← hmentions] at hgains
  refine renders_assign hk hvalue hcall ?_ ?_ hgains
  · rw [Scene.edgeOf?_assign _ hk hvalue, hallocation, if_pos rfl, hstand]
    exact hedges
  · simp only [Scene.allocationOf?_assign _ hk hvalue, hallocation, true_and, hstand]
    exact hfields

end Allocation

/-- The assignment of a pointer is an edge, unless it leads from one part of a heap object to
another. -/
theorem renders_pointer (hpointer : value.isPointer = true)
    (hmeets : v.Meets scene seen [target, source] v₁)
    (hedges : ((edgeKind? (scene.throughHeap target) (scene.throughHeap source)).map
      fun kind => ⟨scene.standIn (seen ++ [target, source]) source,
        scene.standIn (seen ++ [target]) target, kind, i⟩).toList = edges) :
    Renders scene m i seen rest v { v₁ with summary := v₁.summary.extend { edges } } := by
  have hplain : value.isCall = false ∧ value.isAllocation = false ∧
      Scene.bindsFormal value = false := by
    cases value <;> first | exact ⟨rfl, rfl, rfl⟩ | cases hpointer
  have hmentions : scene.mentions i = [target, source] := by
    rw [Scene.mentions_assign hk hvalue, hplain.1, hplain.2.2, hpointer]
    rfl
  have htarget : scene.standIn (seen ++ scene.mentions i ++ rest) target =
      scene.standIn (seen ++ [target]) target := by
    rw [hmentions, show seen ++ [target, source] ++ rest = (seen ++ [target]) ++ (source :: rest) by
      simp, Scene.standIn_append (by simp)]
  have hsource : scene.standIn (seen ++ scene.mentions i ++ rest) source =
      scene.standIn (seen ++ [target, source]) source := by
    rw [hmentions, Scene.standIn_append (by simp)]
  have hgains := hmeets.extends { edges }
  rw [← hmentions] at hgains
  refine renders_assign hk hvalue hplain.1 ?_ ?_ hgains
  · rw [Scene.edgeOf?_assign _ hk hvalue, hplain.2.1, hpointer, htarget, hsource]
    exact hedges
  · rw [Scene.allocationOf?_assign _ hk hvalue, hplain.2.1]
    rfl

theorem ensures_allocation (hallocation : value.isAllocation = true)
    (hmeets : v.Meets scene seen [target] v₁) (t : ValueId)
    (ht : t = scene.standIn (seen ++ [target]) target) :
    Ensures (do
      if !(← scene.value t).isPointer then scene.leaveOut explains [t]
      else if ← scene.isHeapRef t then
        modifySummary fun s => { s with fieldAllocations := s.fieldAllocations.push ⟨source, t, i⟩ }
      else addEdge source t .address i : Surveying Unit) v₁ fun _ v' => Renders scene m i seen rest v v' := by
  subst ht
  refine ensures_lift_bind fun b hb => ?_
  have htarget : scene.isA Value.isPointer target = b.isPointer := by
    rw [← Scene.isPointer_standIn, Scene.isA_of_value hb]
  split
  · next hno =>
    have hno : b.isPointer = false := by simpa using hno
    have hheap : scene.throughHeap target = false := by
      rw [← Bool.not_eq_true]
      intro hheap
      rw [Scene.isPointer_of_throughHeap hheap, hno] at htarget
      cases htarget
    refine ensures_lift.mono fun _ v' h' => ?_
    rw [h'.2, Survey.extend_nil v₁]
    refine renders_allocation hk hvalue hallocation hmeets ?_ ?_
    · rw [htarget, hno]
      rfl
    · rw [hheap]
      rfl
  next hyes =>
  have hyes : b.isPointer = true := by simpa using hyes
  rw [hyes] at htarget
  refine ensures_lift_bind fun heap hheap => ?_
  have hthrough := Scene.throughHeap_of_isHeapRef hheap
  rw [Scene.throughHeap_standIn] at hthrough
  split
  · next hheap =>
    refine (ensures_modifySummary (Summary.extend_allocation ..)).mono ?_
    rintro _ _ rfl
    refine renders_allocation hk hvalue hallocation hmeets ?_ ?_
    · rw [hthrough, htarget, hheap]
      rfl
    · rw [hthrough, hheap]
      rfl
  · next hheap =>
    refine (ensures_modifySummary (Summary.extend_edge ..)).mono ?_
    rintro _ _ rfl
    refine renders_allocation hk hvalue hallocation hmeets ?_ ?_
    · rw [hthrough, htarget, Bool.eq_false_of_not_eq_true hheap]
      rfl
    · rw [hthrough, Bool.eq_false_of_not_eq_true hheap]
      rfl

theorem ensures_pointer (hpointer : value.isPointer = true)
    (hmeets : v.Meets scene seen [target] v₁) (t : ValueId)
    (ht : t = scene.standIn (seen ++ [target]) target) :
    Ensures (do
      let source ← operand scene m source false
      let intoHeap ← scene.isHeapRef t
      let fromHeap ← scene.isHeapRef source
      match edgeKind? intoHeap fromHeap with
      | some kind => addEdge source t kind i
      | none => scene.leaveOut explains [t, source] : Surveying Unit) v₁ fun _ v' =>
        Renders scene m i seen rest v v' := by
  subst ht
  refine ensures_bind (ensures_operand hmeets.notes) ?_
  rintro _ v₂ ⟨rfl, hmeets'⟩
  have hboth := hmeets.trans hmeets'
  refine ensures_lift_bind fun into hinto => ensures_lift_bind fun out hout => ?_
  have hinto := Scene.throughHeap_of_isHeapRef hinto
  have hout := Scene.throughHeap_of_isHeapRef hout
  rw [Scene.throughHeap_standIn] at hinto hout
  rw [List.append_assoc]
  split
  · next kind hkind =>
    refine (ensures_modifySummary (Summary.extend_edge ..)).mono ?_
    rintro _ _ rfl
    refine renders_pointer hk hvalue hpointer hboth ?_
    rw [hinto, hout, hkind]
    rfl
  · next hkind =>
    refine ensures_lift.mono fun _ v' h' => ?_
    rw [h'.2, Survey.extend_nil v₂]
    refine renders_pointer hk hvalue hpointer hboth ?_
    rw [hinto, hout, hkind]
    rfl

end Assign

theorem ensures_assign (hk : scene.kindOf? i = some (.assign target source))
    (hstmt : scene.HasStmt m i) (hv : v.Notes scene seen) (hlisted : v.calls.Listed scene) :
    Ensures (assign scene explains m i target source) v fun _ v' =>
      Renders scene m i seen rest v v' := by
  refine ensures_lift_bind fun value hvalue => ?_
  have hmentions := Scene.mentions_assign hk hvalue
  split
  · refine ensures_pure (renders_nothing hk hvalue rfl rfl rfl ?_)
    rw [hmentions]
    exact .refl hv
  · refine ensures_pure (renders_nothing hk hvalue rfl rfl rfl ?_)
    rw [hmentions]
    exact .refl hv
  next hparameter hself =>
  have hformal : Scene.bindsFormal value = false := by
    cases value with
    | parameter index type => exact absurd rfl (hparameter index type)
    | self owner => exact absurd rfl (hself owner)
    | _ => rfl
  split
  · next hcall =>
    refine ensures_bind (ensures_operand hv) ?_
    rintro _ v₁ ⟨-, hmeets⟩
    have hexpr : scene.callOf? i = (scene.value source).toOption.filter Value.isCall := by
      simp only [Scene.callOf?, hk]
    refine (ensures_call hstmt hexpr hmeets.notes (hmeets.calls ▸ hlisted)).mono fun _ v' h' => ?_
    refine renders_call hk hvalue hcall ?_
    rw [hmentions, hcall, hformal, ← Scene.operandsOf_of_value hvalue]
    exact h'.after hmeets
  next hcall =>
  refine ensures_bind (ensures_operand hv) ?_
  rintro t v₁ ⟨ht, hmeets⟩
  split
  · next hallocation => exact ensures_allocation hk hvalue hallocation hmeets t ht
  next hallocation =>
  split
  · next hpointer => exact ensures_pointer hk hvalue hpointer hmeets t ht
  next hpointer =>
  have hcall : value.isCall = false := by simpa using hcall
  have hallocation : value.isAllocation = false := by simpa using hallocation
  have hpointer : value.isPointer = false := by simpa using hpointer
  refine ensures_pure (renders_nothing hk hvalue hcall hallocation hpointer ?_)
  rw [hmentions, hcall, hpointer, hformal]
  exact hmeets

theorem ensures_statement (rest : List ValueId) (hstmt : scene.HasStmt m i) (hv : v.Notes scene seen)
    (hlisted : v.calls.Listed scene) : Ensures (statement scene explains m i) v fun _ v' =>
      Renders scene m i seen rest v v' := by
  refine ensures_lift_bind fun stmt hi => ?_
  have hk : scene.kindOf? i = some stmt.kind := by simp [Scene.kindOf?, hi, Except.toOption]
  have hnone (hmentions : scene.mentions i = []) (hcall : scene.callOf? i = none)
      (hedge : ∀ rep, scene.edgeOf? rep i = none)
      (hallocation : ∀ rep, scene.allocationOf? rep i = none)
      (hreturn : ∀ rep, scene.returnOf? rep i = none) : Renders scene m i seen rest v v := by
    refine ⟨{}, ⟨by rw [hedge]; rfl, by rw [hallocation]; rfl, by rw [hreturn]; rfl, .noCall hcall⟩, ?_⟩
    rw [hmentions]
    exact (Meets.refl hv).gains_nil
  cases hkind : stmt.kind with
  | assign target source => exact ensures_assign (hk.trans (congrArg some hkind)) hstmt hv hlisted
  | call expr =>
    rw [hkind] at hk
    have hcall : scene.callOf? i = (scene.value expr).toOption.filter Value.isCall := by
      simp only [Scene.callOf?, hk]
    have hmentions : scene.mentions i = scene.operandsOf expr := by simp only [Scene.mentions, hk]
    refine (ensures_call hstmt hcall hv hlisted).mono fun _ v' h' => ?_
    obtain ⟨static, dynamic, unknown, hfiles, hgains⟩ := h'
    rw [← hmentions] at hgains
    refine ⟨_, ⟨?_, ?_, ?_, hfiles⟩, hgains⟩
    · simp only [Scene.edgeOf?, hk, Option.toList]
    · simp only [Scene.allocationOf?, hk, Option.toList]
    · simp only [Scene.returnOf?, hk, Option.toList]
  | ret x =>
    rw [hkind] at hk
    have hmentions : scene.mentions i = [x] := by simp only [Scene.mentions, hk]
    refine ensures_bind (ensures_operand hv) ?_
    rintro _ v₁ ⟨rfl, hmeets⟩
    refine (ensures_modifySummary (Summary.extend_returned ..)).mono ?_
    rintro _ _ rfl
    have hstand : scene.standIn (seen ++ [x] ++ rest) x = scene.standIn (seen ++ [x]) x :=
      Scene.standIn_append (by simp)
    unfold Renders
    rw [hmentions]
    refine ⟨_, ⟨?_, ?_, ?_, .noCall ?_⟩, hmeets.extends _⟩
    · simp only [Scene.edgeOf?, hk, Option.toList]
    · simp only [Scene.allocationOf?, hk, Option.toList]
    · simp only [Scene.returnOf?, hk, Option.toList, hstand]
    · simp only [Scene.callOf?, hk]
  | retVoid | nop =>
    rw [hkind] at hk
    refine ensures_pure (hnone ?_ ?_ ?_ ?_ ?_)
    all_goals first | intro rep | skip
    · simp only [Scene.mentions, hk]
    · simp only [Scene.callOf?, hk]
    · simp only [Scene.edgeOf?, hk]
    · simp only [Scene.allocationOf?, hk]
    · simp only [Scene.returnOf?, hk]

end Surveying

/-- A summary consists of what the statements have added, in their order. -/
structure Summary.MadeOf (s : Summary) (as : List Contribution) : Prop where
  edges : s.edges.toList = as.flatMap (·.edges)
  fieldAllocations : s.fieldAllocations.toList = as.flatMap (·.fieldAllocations)
  returned : s.returned.toList = as.flatMap (·.returned)
  staticCalls : s.staticCalls.toList = as.flatMap (·.staticCalls)
  dynamicCalls : s.dynamicCalls.toList = as.flatMap (·.dynamicCalls)
  unknownCalls : s.unknownCalls.toList = as.flatMap (·.unknownCalls)

theorem Summary.MadeOf.extend {s : Summary} {as : List Contribution} (h : s.MadeOf as)
    (a : Contribution) (statics : Std.TreeSet ValueId) :
    Summary.MadeOf { s.extend a with statics } (as ++ [a]) := by
  obtain ⟨he, hf, hr, hs, hd, hu⟩ := h
  constructor <;> simp [Summary.extend, *]

/-- A summary says what the statements of the body say, where the first reference to a static field
or global property stands for all others. -/
structure Summary.Faithful (scene : Scene) (m : MethodId) (calls : CallGraph) (stmts : List StmtId)
    (s : Summary) : Prop where
  edges : s.edges.toList =
    stmts.filterMap (scene.edgeOf? (scene.standIn (stmts.flatMap scene.mentions)))
  fieldAllocations : s.fieldAllocations.toList =
    stmts.filterMap (scene.allocationOf? (scene.standIn (stmts.flatMap scene.mentions)))
  returned : s.returned.toList =
    stmts.filterMap (scene.returnOf? (scene.standIn (stmts.flatMap scene.mentions)))
  statics : ∀ x, x ∈ s.statics ↔ ∃ p, scene.firstOf? (stmts.flatMap scene.mentions) p = some x
  calls : ∃ as : List Contribution, List.Forall₂ (fun i a =>
      scene.Files m calls i a.staticCalls a.dynamicCalls a.unknownCalls) stmts as ∧
    s.staticCalls.toList = as.flatMap (·.staticCalls) ∧
    s.dynamicCalls.toList = as.flatMap (·.dynamicCalls) ∧
    s.unknownCalls.toList = as.flatMap (·.unknownCalls)

namespace Survey

variable {scene : Scene} {m : MethodId} {v : Survey} {explains : Bool} {stmts : List StmtId}
  {as : List Contribution} {all : List ValueId} {calls : CallGraph} {log : Array Notice}

/-- What holds of a survey that has gone through the statements `done` of a body whose operands are
`all`. -/
structure Done (scene : Scene) (m : MethodId) (all : List ValueId) (done : List StmtId)
    (as : List Contribution) (v : Survey) : Prop where
  notes : v.Notes scene (done.flatMap scene.mentions)
  listed : v.calls.Listed scene
  made : v.summary.MadeOf as
  told : List.Forall₂ (Contribution.Of scene m (scene.standIn all) v.calls) done as

theorem Done.step {done : List StmtId} {i : StmtId} {rest : List ValueId} {v' : Survey}
    (h : v.Done scene m all done as)
    (hall : done.flatMap scene.mentions ++ scene.mentions i ++ rest = all)
    (hrenders : Surveying.Renders scene m i (done.flatMap scene.mentions) rest v v') :
    ∃ a, v'.Done scene m all (done ++ [i]) (as ++ [a]) := by
  obtain ⟨a, hof, hgains⟩ := hrenders
  have hgrows := hgains.calls
  refine ⟨a, ?_, hgrows.listed h.listed, ?_, ?_⟩
  · have hnotes := hgains.notes
    simpa using hnotes
  · rw [hgains.summary]
    exact h.made.extend a _
  · refine List.rel_append ?_ (.cons (hall ▸ hof) .nil)
    refine h.told.imp fun j b hb => ?_
    exact { hb with files := hb.files.mono hgrows.sites }

/-- A survey goes through the statements of the body one by one. -/
theorem ensures_body {decl : MethodDecl} (hdecl : scene.method m = .ok decl)
    (hall : decl.stmts.flatMap scene.mentions = all) (hv : v.Done scene m all [] []) :
    Ensures (decl.stmts.forM (Surveying.statement scene explains m)) v fun _ v' =>
      ∃ as, v'.Done scene m all decl.stmts as := by
  refine (ensures_forM_rest (I := fun rest v' => ∃ done as, decl.stmts = done ++ rest ∧
    v'.Done scene m all done as) decl.stmts ⟨[], [], rfl, hv⟩ ?_).mono ?_
  · rintro i rest v₁ ⟨done, as, hstmts, h₁⟩
    have hstmt : scene.HasStmt m i := ⟨decl, hdecl, by simp [hstmts]⟩
    refine (Surveying.ensures_statement (rest.flatMap scene.mentions) hstmt h₁.notes
      h₁.listed).mono fun _ v' hrenders => ?_
    obtain ⟨a, h'⟩ := h₁.step (by rw [← hall, hstmts]; simp) hrenders
    exact ⟨done ++ [i], as ++ [a], by simp [hstmts], h'⟩
  · rintro _ v' ⟨done, as, hstmts, h'⟩
    rw [List.append_nil] at hstmts
    exact ⟨as, hstmts ▸ h'⟩

/-- What each statement adds at most once is listed in the order of the statements. -/
theorem flatMap_eq_filterMap {α : Type} {R : StmtId → Contribution → Prop}
    {part : Contribution → List α} {f : StmtId → Option α} (h : List.Forall₂ R stmts as)
    (hpart : ∀ i a, R i a → part a = (f i).toList) : as.flatMap part = stmts.filterMap f := by
  induction h with
  | nil => rfl
  | @cons i a stmts as hi _ ih =>
    rw [List.flatMap_cons, hpart i a hi, ih, List.filterMap_cons]
    cases f i <;> rfl

theorem Done.faithful (h : v.Done scene m (stmts.flatMap scene.mentions) stmts as) :
    v.summary.Faithful scene m v.calls stmts where
  edges := h.made.edges.trans (flatMap_eq_filterMap h.told fun _ _ ha => ha.edges)
  fieldAllocations :=
    h.made.fieldAllocations.trans (flatMap_eq_filterMap h.told fun _ _ ha => ha.fieldAllocations)
  returned := h.made.returned.trans (flatMap_eq_filterMap h.told fun _ _ ha => ha.returned)
  statics := h.notes.statics
  calls := ⟨as, h.told.imp fun _ _ ha => ha.files, h.made.staticCalls, h.made.dynamicCalls,
    h.made.unknownCalls⟩

/-- The survey of a method gives a faithful summary. -/
theorem faithful_of_ofMethod (hcalls : calls.Listed scene)
    (h : ofMethod scene explains m calls log = .ok () v) :
    ∃ decl, scene.method m = .ok decl ∧ v.calls.Listed scene ∧
      v.summary.Faithful scene m v.calls decl.stmts := by
  obtain ⟨decl, v₁, hlift, hrun⟩ := bind_eq_ok.1 h
  obtain ⟨hdecl, rfl⟩ := Surveying.ensures_lift.1 hlift
  have hstart : Done scene m (decl.stmts.flatMap scene.mentions) [] []
      { summary := { method := m }, calls, log } :=
    ⟨⟨fun p => rfl, fun x => by simp [Scene.firstOf?]⟩, hcalls,
      ⟨rfl, rfl, rfl, rfl, rfl, rfl⟩, .nil⟩
  obtain ⟨as, hdone⟩ := (ensures_body hdecl rfl hstart).1 hrun
  exact ⟨decl, hdecl, hdone.listed, hdone.faithful⟩

/-- The survey of a method of a well-formed scene does not fail. -/
theorem ofMethod_returns {k : Table → Nat} (hscene : scene.WellFormed) (hm : scene.Has .method m)
    (hcalls : calls.InRange scene k) (hlog : NoUnknownContext log) :
    ∃ v, ofMethod scene explains m calls log = .ok () v := by
  have hout : (watch scene k True).Outcome _ _ (ofMethod scene explains m calls log) :=
    outcome_ofMethod (fun _ _ => hm) (fun _ => hcalls) fun _ => hlog
  revert hout
  generalize ofMethod scene explains m calls log = r
  intro hout
  cases hout with
  | @ok _ v => exact ⟨v, rfl⟩
  | error _ he => exact absurd hscene (he.2 trivial).1

end Survey

namespace FlowGraph

/-! All references to one static field or global property have the same node. -/

variable {s : Scene} {g g' : FlowGraph} {c d : ContextId} {v w r : ValueId} {n : NodeId} {p : Place}
  {stmt : Option StmtId}

theorem settle_of_lookup (hv : s.shared? v = some p) (hr : g.representatives.lookup p = some r) :
    Growing.settle s c v g = .ok (.empty, r) g := by
  obtain ⟨hplace, hshared⟩ := Scene.shared?_eq_some.1 hv
  rw [Growing.settle, lift_bind_run hplace]
  dsimp only
  rw [modifyGet_bind_run, hr, hshared]
  rfl

/-- A reference to what all contexts share is no variable. -/
theorem value_of_shared (hv : s.shared? v = some p) :
    ∃ a, s.value v = .ok a ∧ a.isGlobalObject = false := by
  rcases Scene.shared?_cases hv with ⟨-, base, target, -, ha⟩ | ⟨-, target, ha⟩
  · exact ⟨_, ha, rfl⟩
  · exact ⟨_, ha, rfl⟩

theorem value_of_lookup (hv : s.shared? v = some p) (hw : s.shared? w = some p)
    (hr : g.representatives.lookup p = some r) :
    Growing.value s c v stmt g = Growing.value s c w stmt g := by
  obtain ⟨a, ha, hglobal⟩ := value_of_shared hv
  obtain ⟨b, hb, hglobal'⟩ := value_of_shared hw
  unfold Growing.value Growing.valueWithin
  rw [lift_bind_run ha, lift_bind_run hb, hglobal, hglobal', if_neg Bool.false_ne_true,
    if_neg Bool.false_ne_true, bind_run_of_ok (settle_of_lookup hv hr),
    bind_run_of_ok (settle_of_lookup hw hr)]

theorem introduce_of_new {kind : NodeKind} (hkind : ∀ b k, kind ≠ .fieldRef b k)
    (hnew : g.interned[(c, Location.value v)]? = none) :
    ∃ g', Growing.introduce c v stmt kind g = .ok ⟨g.nodes.size⟩ g' := by
  unfold Growing.introduce Growing.intern
  rw [modifyGet_bind_run, hnew]
  cases kind with
  | fieldRef b k => exact absurd rfl (hkind b k)
  | _ => exact ⟨_, rfl⟩

/-- The first reference to a static field or global property gets a new node. -/
theorem value_of_unseen (h : g.Consistent s) (hv : s.shared? v = some p)
    (hr : g.representatives.lookup p = none) :
    ∃ g', Growing.value s c v stmt g = .ok ⟨g.nodes.size⟩ g' := by
  obtain ⟨hplace, hshared⟩ := Scene.shared?_eq_some.1 hv
  obtain ⟨a, ha, hglobal⟩ := value_of_shared hv
  have hnew : g.interned[(ContextId.empty, Location.value v)]? = none := by
    rw [Option.eq_none_iff_forall_ne_some]
    intro n hn
    have hlookup := (h.represents hplace hn).1
    rw [hr] at hlookup
    cases hlookup
  have hsettled : Growing.settle s c v g =
      .ok (.empty, v) { g with representatives := (p, v) :: g.representatives } := by
    rw [Growing.settle, lift_bind_run hplace]
    dsimp only
    rw [modifyGet_bind_run, hr, hshared]
    rfl
  unfold Growing.value Growing.valueWithin
  rw [lift_bind_run ha, hglobal, if_neg Bool.false_ne_true, bind_run_of_ok hsettled]
  dsimp only
  rw [get_bind_run, hnew]
  dsimp only
  rcases Scene.shared?_cases hv with ⟨name, base, target, hg, -⟩ | ⟨hg, target, hstatic⟩
  · rw [lift_bind_run hg]
    exact introduce_of_new (by rintro _ _ ⟨⟩) hnew
  · rw [lift_bind_run hg, Option.isSome_none, if_neg Bool.false_ne_true, lift_bind_run hstatic]
    exact introduce_of_new (by rintro _ _ ⟨⟩) hnew

/-- Two references to one static field or global property are given the same node. -/
theorem value_shared_iff (h : g.Consistent s) (hv : s.shared? v = some p)
    (hw : s.shared? w = some p) :
    (∃ g', Growing.value s c v stmt g = .ok n g') ↔ ∃ g', Growing.value s c w stmt g = .ok n g' := by
  cases hr : g.representatives.lookup p with
  | some r => rw [value_of_lookup hv hw hr]
  | none =>
    obtain ⟨g₁, h₁⟩ : ∃ g', Growing.value s c v stmt g = .ok ⟨g.nodes.size⟩ g' :=
      value_of_unseen h hv hr
    obtain ⟨g₂, h₂⟩ : ∃ g', Growing.value s c w stmt g = .ok ⟨g.nodes.size⟩ g' :=
      value_of_unseen h hw hr
    rw [h₁, h₂]
    constructor
    · rintro ⟨_, hn⟩
      cases hn
      exact ⟨_, rfl⟩
    · rintro ⟨_, hn⟩
      cases hn
      exact ⟨_, rfl⟩

/-- The node of a reference to a static field or global property is found by all others. -/
theorem nodeOf?_shared (h : g.Consistent s) (hv : s.shared? v = some p) (hw : s.shared? w = some p)
    (hn : g.nodeOf? s c v = .ok (some n)) : g.nodeOf? s d w = .ok (some n) := by
  obtain ⟨a, ha, hglobal⟩ := value_of_shared hv
  obtain ⟨b, hb, hglobal'⟩ := value_of_shared hw
  obtain ⟨hplace, hshared⟩ := Scene.shared?_eq_some.1 hv
  have hplace' := (Scene.shared?_eq_some.1 hw).1
  obtain ⟨a', ha', hn⟩ := nodeOf?_eq_some.1 hn
  cases Except.ok.inj (ha.symm.trans ha')
  rw [hglobal, if_neg Bool.false_ne_true] at hn
  obtain ⟨k, hk, hn⟩ := hn
  obtain ⟨p?, hp, rfl⟩ := known_eq_ok.1 hk
  cases Except.ok.inj (hplace.symm.trans hp)
  refine nodeOf?_eq_some.2 ⟨b, hb, ?_⟩
  rw [hglobal', if_neg Bool.false_ne_true]
  refine ⟨_, known_eq_ok.2 ⟨_, hplace', rfl⟩, ?_⟩
  obtain ⟨r, hr⟩ : ∃ r, g.representatives.lookup p = some r :=
    ⟨_, (h.represents (h.place?_lookup hplace) hn).1⟩
  simpa only [hr, hshared, Option.getD_some, if_true] using hn

/-- What stands for an operand is given the same node as the operand. -/
theorem value_standIn_iff (h : g.Consistent s) (seen : List ValueId) :
    (∃ g', Growing.value s c (s.standIn seen v) stmt g = .ok n g') ↔
      ∃ g', Growing.value s c v stmt g = .ok n g' := by
  cases hv : s.shared? v with
  | none => rw [Scene.standIn_of_none hv]
  | some p => exact value_shared_iff h (Scene.shared?_standIn.trans hv) hv

theorem nodeOf?_of_value_standIn (h : g.Consistent s) {seen : List ValueId}
    (hn : Growing.value s c (s.standIn seen v) stmt g = .ok n g') :
    g'.nodeOf? s c v = .ok (some n) := by
  obtain ⟨hgrows, hfound, -⟩ := (ensures_value h).1 hn
  cases hv : s.shared? v with
  | none => rwa [Scene.standIn_of_none hv] at hfound
  | some p => exact nodeOf?_shared hgrows.consistent (Scene.shared?_standIn.trans hv) hv hfound

end FlowGraph

/-- The survey of a method of a well-formed scene gives a summary, and any summary that it gives says
what the statements of the body say, in their order. What stands for an operand in it is the operand
itself, or the one reference of the body that is used for this static field or global property; in
every graph and under every context both have the same node. -/
theorem Survey.ofMethod_faithful (scene : Scene) (explains : Bool) (m : MethodId)
    (calls : CallGraph) (log : Array Notice) (hcalls : calls.Listed scene) :
    (∀ k, scene.WellFormed → scene.Has .method m → calls.InRange scene k → NoUnknownContext log →
      ∃ v, ofMethod scene explains m calls log = .ok () v) ∧
    ∀ v, ofMethod scene explains m calls log = .ok () v →
      ∃ decl operands, scene.method m = .ok decl ∧ decl.stmts.flatMap scene.mentions = operands ∧
        v.calls.Listed scene ∧ v.summary.Faithful scene m v.calls decl.stmts ∧
        (∀ x, scene.standIn operands x = x ∨ ∃ p, p.isShared = true ∧
          scene.place? x = .ok (some p) ∧ scene.place? (scene.standIn operands x) = .ok (some p)) ∧
        (∀ x ∈ operands, ∀ y p, scene.shared? x = some p → scene.shared? y = some p →
          scene.standIn operands x = scene.standIn operands y) ∧
        ∀ (g : FlowGraph) c x stmt n, g.Consistent scene →
          ((∃ g', Growing.value scene c (scene.standIn operands x) stmt g = .ok n g') ↔
            ∃ g', Growing.value scene c x stmt g = .ok n g') ∧
          ∀ g', Growing.value scene c (scene.standIn operands x) stmt g = .ok n g' →
            g'.nodeOf? scene c x = .ok (some n) := by
  refine ⟨fun k hscene hm hin hlog => ofMethod_returns hscene hm hin hlog, fun v h => ?_⟩
  obtain ⟨decl, hdecl, hlisted, hfaithful⟩ := faithful_of_ofMethod hcalls h
  refine ⟨decl, _, hdecl, rfl, hlisted, hfaithful, fun _ => Scene.standIn_eq_or,
    fun x hx y p hxp hyp => Scene.standIn_unique hx hxp hyp, fun g c x stmt n hg => ?_⟩
  exact ⟨FlowGraph.value_standIn_iff hg _, fun g' hn => FlowGraph.nodeOf?_of_value_standIn hg hn⟩

/-- `x = new Main; Main.it = x; y = Main.it; x.f = new Main; y = x.f; x.f = y; x.f = x.f; main();
return Main.it`, where the references to `Main.it` are three values. -/
def threeReferences : Scene where
  files := #[⟨⟨0⟩, "main", ⟨0⟩, ⟨0⟩, ∅, ∅⟩]
  classes := #[⟨⟨0⟩, "Main", none, ⟨0⟩, none, false, ∅⟩]
  methods := #[{
    id := ⟨0⟩
    name := "main"
    owner := ⟨0⟩
    signature := ⟨"Main", "main"⟩
    isStatic := true
    isAbstract := false
    params := []
    returnType := .void
    body := some {
      locals := ((∅ : NameMap ValueId).insert "x" ⟨0⟩).insert "y" ⟨5⟩
      stmts := #[⟨0⟩, ⟨1⟩, ⟨2⟩, ⟨3⟩, ⟨4⟩, ⟨5⟩, ⟨6⟩, ⟨7⟩, ⟨8⟩] }
    outer := none }]
  stmts := #[⟨⟨0⟩, .assign ⟨0⟩ ⟨1⟩⟩, ⟨⟨0⟩, .assign ⟨2⟩ ⟨0⟩⟩, ⟨⟨0⟩, .assign ⟨5⟩ ⟨3⟩⟩,
    ⟨⟨0⟩, .assign ⟨6⟩ ⟨1⟩⟩, ⟨⟨0⟩, .assign ⟨5⟩ ⟨6⟩⟩, ⟨⟨0⟩, .assign ⟨6⟩ ⟨5⟩⟩,
    ⟨⟨0⟩, .assign ⟨6⟩ ⟨6⟩⟩, ⟨⟨0⟩, .call ⟨7⟩⟩, ⟨⟨0⟩, .ret ⟨4⟩⟩]
  values := #[.var "x" .any, .new "Main", .staticField ⟨"Main", "it"⟩,
    .staticField ⟨"Main", "it"⟩, .staticField ⟨"Main", "it"⟩, .var "y" .any,
    .field ⟨0⟩ ⟨"Main", "f"⟩, .staticCall ⟨"Main", "main"⟩ []]

/-- The first reference stands for the two others, the allocation into a field is no edge, the field
is read and written, and the assignment between two fields is left out. -/
theorem ofMethod_threeReferences : ∃ v, Survey.ofMethod threeReferences false ⟨0⟩ {} #[] = .ok () v ∧
    v.summary.edges.toList = [⟨⟨1⟩, ⟨0⟩, .address, ⟨0⟩⟩, ⟨⟨0⟩, ⟨2⟩, .copy, ⟨1⟩⟩,
      ⟨⟨2⟩, ⟨5⟩, .copy, ⟨2⟩⟩, ⟨⟨6⟩, ⟨5⟩, .load, ⟨4⟩⟩, ⟨⟨5⟩, ⟨6⟩, .write, ⟨5⟩⟩] ∧
    v.summary.fieldAllocations.toList = [⟨⟨1⟩, ⟨6⟩, ⟨3⟩⟩] ∧
    v.summary.returned.toList = [⟨2⟩] ∧
    ∃ g, Growing.value threeReferences .empty ⟨2⟩ none {} = .ok ⟨0⟩ g ∧
      g.nodeOf? threeReferences .empty ⟨4⟩ = .ok (some ⟨0⟩) := by
  obtain ⟨hreturns, hfaithful⟩ := Survey.ofMethod_faithful threeReferences false ⟨0⟩ {} #[]
    (by simp [CallGraph.Listed])
  have hscene : threeReferences.WellFormed := Scene.Ordered.wellFormed (by decide +kernel)
  obtain ⟨v, hv⟩ := hreturns (fun _ => 0) hscene (by decide +kernel) CallGraph.inRange_empty
    (by simp [NoUnknownContext])
  obtain ⟨decl, operands, hdecl, rfl, -, hsummary, -, -, hsame⟩ := hfaithful v hv
  cases hdecl
  refine ⟨v, hv, ?_, ?_, ?_, ?_⟩
  · rw [hsummary.edges]
    decide +kernel
  · rw [hsummary.fieldAllocations]
    decide +kernel
  · rw [hsummary.returned]
    decide +kernel
  · have hgraph : FlowGraph.Consistent threeReferences {} := .empty _
    obtain ⟨g, hg⟩ := FlowGraph.value_of_unseen (c := .empty) (v := ⟨2⟩)
      (p := .staticField ⟨"Main", "it"⟩) hgraph (by decide +kernel) rfl
    exact ⟨g, hg, (hsame {} .empty ⟨4⟩ none ⟨0⟩ hgraph).2 g hg⟩

end PointsTo
