import PointsTo.Proofs.Call.Sites
import PointsTo.Proofs.Flow.Growing

/-! What a statement says to the summary of its method: at most one edge, allocation or returned
value, and the sites of its call. All references to one static field or global property are replaced
by the first one. -/
namespace PointsTo

namespace Scene

/-! What a statement is about, looked up without failing. -/

def kindOf? (s : Scene) (i : StmtId) : Option StmtKind := (s.stmt i).toOption.map (·.kind)

/-- Whether a value is of some kind. -/
def isA (s : Scene) (q : Value → Bool) (v : ValueId) : Bool := (s.value v).toOption.any q

/-- Whether a value refers to a part of a heap object. -/
def throughHeap (s : Scene) (v : ValueId) : Bool := (s.isHeapRef v).toOption.getD false

/-- The static field or global property that a value refers to. -/
def shared? (s : Scene) (v : ValueId) : Option Place :=
  (s.place? v).toOption.join.filter Place.isShared

/-- The values that a call is made with. -/
def operandsOf (s : Scene) (v : ValueId) : List ValueId :=
  ((s.value v).toOption.map (·.operands)).getD []

/-- Whether a value stands for what a formal is bound to. -/
def bindsFormal : Value → Bool
  | .parameter .. | .self _ => true
  | _ => false

/-- The operands of a statement, in the order in which they are met. The bindings of formals have
none. -/
def mentions (s : Scene) (i : StmtId) : List ValueId :=
  match s.kindOf? i with
  | some (.assign target source) =>
    if s.isA bindsFormal source then []
    else if s.isA Value.isCall source then target :: s.operandsOf source
    else if s.isA Value.isPointer source then [target, source]
    else [target]
  | some (.call expr) => s.operandsOf expr
  | some (.ret v) => [v]
  | _ => []

/-- The first reference to a place. -/
def firstOf? (s : Scene) (seen : List ValueId) (p : Place) : Option ValueId :=
  seen.find? fun v => s.shared? v = some p

/-- The reference that stands for a value among those that have been met: the first one to the same
static field or global property, or else the value itself. -/
def standIn (s : Scene) (seen : List ValueId) (v : ValueId) : ValueId :=
  ((s.shared? v).bind (s.firstOf? seen)).getD v

variable (s : Scene) (rep : ValueId → ValueId) (i : StmtId)

/-- The edge of a statement: an address edge for an allocation into a pointer that is no part of a
heap object. For the assignment of a pointer it is a load if the source is such a part, a write if
the target is one, and a copy if neither is; there is no edge if both are. -/
def edgeOf? : Option LocalEdge :=
  match s.kindOf? i with
  | some (.assign target source) =>
    if s.isA Value.isAllocation source then
      if s.isA Value.isPointer target ∧ ¬ s.throughHeap target then
        some ⟨source, rep target, .address, i⟩
      else none
    else if s.isA Value.isPointer source then
      match s.throughHeap target, s.throughHeap source with
      | false, false => some ⟨rep source, rep target, .copy, i⟩
      | false, true => some ⟨rep source, rep target, .load, i⟩
      | true, false => some ⟨rep source, rep target, .write, i⟩
      | true, true => none
    else none
  | _ => none

/-- The allocation of a statement straight into a part of a heap object. -/
def allocationOf? : Option FieldAllocation :=
  match s.kindOf? i with
  | some (.assign target source) =>
    if s.isA Value.isAllocation source ∧ s.throughHeap target then some ⟨source, rep target, i⟩
    else none
  | _ => none

def returnOf? : Option ValueId :=
  match s.kindOf? i with
  | some (.ret v) => some (rep v)
  | _ => none

/-- The value of the call that a statement makes. -/
def callOf? : Option Value :=
  match s.kindOf? i with
  | some (.assign _ source) => (s.value source).toOption.filter Value.isCall
  | some (.call expr) => (s.value expr).toOption.filter Value.isCall
  | _ => none

variable (m : MethodId)

/-- The call of a statement of `m` waits for the objects of its receiver under the given number. -/
inductive AwaitsAt (id : SiteId) : DynamicSite → Prop where
  | instance {base : ValueId} {target : Signature} {args : List ValueId} {stmt : Stmt} :
      s.stmt i = .ok stmt → s.callOf? i = some (.instanceCall base target args) →
      AwaitsAt id ⟨id, some i, target, some (args.map .value), stmt.target?, some (.value base), m,
        s.methodOf? target⟩
  | pointer {pointer : ValueId} {args : List ValueId} {stmt : Stmt} :
      s.stmt i = .ok stmt → s.callOf? i = some (.pointerCall pointer args) →
      AwaitsAt id ⟨id, some i, ⟨Name.unknownClass, Name.pointerCall⟩, some (args.map .value),
        stmt.target?, some (.value pointer), m, none⟩

end Scene

/-- Whether a call is on a receiver of unknown class. -/
def DynamicSite.IsUnknown (site : DynamicSite) : Prop :=
  (site.signature.hasUnknownOwner && site.signature.name != Name.pointerCall) = true

/-- What a statement adds to the summary of its method. -/
structure Contribution where
  edges : List LocalEdge := []
  fieldAllocations : List FieldAllocation := []
  returned : List ValueId := []
  staticCalls : List SiteId := []
  dynamicCalls : List SiteId := []
  unknownCalls : List SiteId := []

/-- How the call of a statement is filed: under the sites that the class hierarchy gives; if there
are none, under one site that waits for objects; a static call without a callee is left out. -/
inductive Scene.Files (scene : Scene) (m : MethodId) (calls : CallGraph) (i : StmtId) :
    (static dynamic unknown : List SiteId) → Prop where
  | noCall : scene.callOf? i = none → Files scene m calls i [] [] []
  | resolved {value : Value} {contents : List StaticSite} {sites : List SiteId} :
      scene.callOf? i = some value → scene.Resolves i contents → contents ≠ [] →
      sites.map calls.content? = contents.map some → Files scene m calls i sites [] []
  | waiting {id : SiteId} {site : DynamicSite} : scene.Resolves i [] →
      scene.AwaitsAt i m id site → calls.sites.dynamic? id = some site → ¬ site.IsUnknown →
      Files scene m calls i [] [id] []
  | unknown {id : SiteId} {site : DynamicSite} : scene.Resolves i [] →
      scene.AwaitsAt i m id site → calls.sites.dynamic? id = some site → site.IsUnknown →
      Files scene m calls i [] [] [id]
  | lost {target : Signature} {args : List ValueId} : scene.Resolves i [] →
      scene.callOf? i = some (.staticCall target args) → Files scene m calls i [] [] []

theorem Scene.Files.mono {scene : Scene} {m : MethodId} {calls calls' : CallGraph} {i : StmtId}
    {static dynamic unknown : List SiteId} (h : scene.Files m calls i static dynamic unknown)
    (hg : calls.sites.Grows calls'.sites) : scene.Files m calls' i static dynamic unknown := by
  cases h with
  | noCall hno => exact .noCall hno
  | resolved hvalue hc hne hs => exact .resolved hvalue hc hne (CallGraph.map_content?_mono hg hs)
  | waiting hc hawaits hsite hknown => exact .waiting hc hawaits (hg.dynamic? hsite) hknown
  | unknown hc hawaits hsite hunknown => exact .unknown hc hawaits (hg.dynamic? hsite) hunknown
  | lost hc hvalue => exact .lost hc hvalue

/-- What the statement `i` of `m` has to add, where `rep` gives the value that stands for each
operand. -/
structure Contribution.Of (scene : Scene) (m : MethodId) (rep : ValueId → ValueId)
    (calls : CallGraph) (i : StmtId) (a : Contribution) : Prop where
  edges : a.edges = (scene.edgeOf? rep i).toList
  fieldAllocations : a.fieldAllocations = (scene.allocationOf? rep i).toList
  returned : a.returned = (scene.returnOf? rep i).toList
  files : scene.Files m calls i a.staticCalls a.dynamicCalls a.unknownCalls

/-- The summary with what a statement adds to it. -/
def Summary.extend (s : Summary) (a : Contribution) : Summary :=
  { s with
    edges := s.edges ++ a.edges.toArray
    fieldAllocations := s.fieldAllocations ++ a.fieldAllocations.toArray
    returned := s.returned ++ a.returned.toArray
    staticCalls := s.staticCalls ++ a.staticCalls.toArray
    dynamicCalls := s.dynamicCalls ++ a.dynamicCalls.toArray
    unknownCalls := s.unknownCalls ++ a.unknownCalls.toArray }

theorem Survey.extend_nil (v : Survey) : v = { v with summary := v.summary.extend {} } := by
  simp [Summary.extend]

theorem Summary.extend_edge (s : Summary) (e : LocalEdge) :
    s.extend { edges := [e] } = { s with edges := s.edges.push e } := by simp [extend]

theorem Summary.extend_allocation (s : Summary) (a : FieldAllocation) :
    s.extend { fieldAllocations := [a] } = { s with fieldAllocations := s.fieldAllocations.push a } := by
  simp [extend]

theorem Summary.extend_returned (s : Summary) (v : ValueId) :
    s.extend { returned := [v] } = { s with returned := s.returned.push v } := by simp [extend]

namespace Scene

variable {s : Scene} {v x : ValueId} {p : Place} {seen rest : List ValueId} {a : Value}

theorem isA_of_value (h : s.value v = .ok a) (q : Value → Bool) : s.isA q v = q a := by
  simp [isA, h, Except.toOption]

theorem throughHeap_of_isHeapRef {b : Bool} (h : s.isHeapRef v = .ok b) : s.throughHeap v = b := by
  simp [throughHeap, h, Except.toOption]

theorem operandsOf_of_value (h : s.value v = .ok a) : s.operandsOf v = a.operands := by
  simp [operandsOf, h, Except.toOption]

theorem shared?_eq_some :
    s.shared? v = some p ↔ s.place? v = .ok (some p) ∧ p.isShared = true := by
  unfold shared?
  cases s.place? v with
  | error e => simp [Except.toOption]
  | ok p? => cases p? <;> simp [Except.toOption, Option.filter_eq_some_iff]

theorem shared?_of_place? {p? : Option Place} (h : s.place? v = .ok p?)
    (hp : ∀ p ∈ p?, p.isShared = false) : s.shared? v = none := by
  rw [Option.eq_none_iff_forall_ne_some]
  intro p hsome
  obtain ⟨hplace, hshared⟩ := shared?_eq_some.1 hsome
  rw [h] at hplace
  cases hplace
  simp [hp p rfl] at hshared

theorem exists_field_of_globalProperty? {name : String}
    (h : s.globalProperty? v = .ok (some name)) :
    ∃ base target, s.value v = .ok (.field base target) := by
  unfold globalProperty? at h
  cases hv : s.value v with
  | error e => simp [hv, bind, Except.bind] at h
  | ok a =>
    cases a with
    | field base target => exact ⟨base, target, rfl⟩
    | _ => simp [hv, bind, Except.bind, pure, Except.pure] at h

/-- What refers to a static field or global property. -/
theorem shared?_cases (h : s.shared? v = some p) :
    (∃ name base target, s.globalProperty? v = .ok (some name) ∧
      s.value v = .ok (.field base target)) ∨
    s.globalProperty? v = .ok none ∧ ∃ target, s.value v = .ok (.staticField target) := by
  obtain ⟨hplace, hshared⟩ := shared?_eq_some.1 h
  cases hg : s.globalProperty? v with
  | error e => simp [place?, hg, bind, Except.bind] at hplace
  | ok name? =>
    cases name? with
    | some name =>
      obtain ⟨base, target, hv⟩ := exists_field_of_globalProperty? hg
      exact .inl ⟨name, base, target, rfl, hv⟩
    | none =>
      refine .inr ⟨rfl, ?_⟩
      cases hv : s.value v with
      | error e => simp [place?, hg, hv, bind, Except.bind] at hplace
      | ok a =>
        rw [FlowGraph.place?_of_value hg hv] at hplace
        cases a with
        | staticField target => exact ⟨target, rfl⟩
        | field base target | element base index =>
          cases hplace
          cases hshared
        | _ => cases hplace

theorem isHeapRef_eq {name? : Option String} (hv : s.value v = .ok a)
    (hg : s.globalProperty? v = .ok name?) :
    s.isHeapRef v = .ok (a.isFieldLike && name?.isNone) := by
  rw [isHeapRef, hv, hg]
  cases h : a.isFieldLike <;> simp [bind, Except.bind, h, pure, Except.pure]

theorem isPointer_of_throughHeap (h : s.throughHeap v = true) : s.isA Value.isPointer v = true := by
  cases hv : s.value v with
  | error e => simp [throughHeap, isHeapRef, hv, bind, Except.bind, Except.toOption] at h
  | ok a =>
    rw [isA_of_value hv]
    cases a with
    | field | element => rfl
    | _ =>
      simp [throughHeap, isHeapRef, hv, bind, Except.bind, Except.toOption, Value.isFieldLike, pure,
        Except.pure] at h

/-- A reference to a static field or global property is a pointer outside the heap. -/
theorem value_of_shared? (h : s.shared? v = some p) :
    s.isA Value.isPointer v = true ∧ s.throughHeap v = false := by
  rcases shared?_cases h with ⟨name, base, target, hg, hv⟩ | ⟨hg, target, hv⟩
  · exact ⟨isA_of_value hv _, throughHeap_of_isHeapRef (isHeapRef_eq hv hg)⟩
  · exact ⟨isA_of_value hv _, throughHeap_of_isHeapRef (isHeapRef_eq hv hg)⟩

theorem shared?_of_staticField {target : Signature} (h : s.value v = .ok (.staticField target)) :
    s.shared? v = some (.staticField target) := by
  have hg : s.globalProperty? v = .ok none := by
    rw [globalProperty?, h]
    rfl
  exact shared?_eq_some.2 ⟨FlowGraph.place?_of_value hg h, rfl⟩

/-- Of all values only references can name a static field or global property. -/
theorem shared?_of_value (h : s.value v = .ok a) (hfield : ∀ base target, a ≠ .field base target)
    (hstatic : ∀ target, a ≠ .staticField target) : s.shared? v = none := by
  rw [Option.eq_none_iff_forall_ne_some]
  intro p hp
  rcases shared?_cases hp with ⟨-, base, target, -, hv⟩ | ⟨-, target, hv⟩
  · exact hfield base target (Except.ok.inj (h.symm.trans hv))
  · exact hstatic target (Except.ok.inj (h.symm.trans hv))

section StandIn

theorem firstOf?_append : s.firstOf? (seen ++ rest) p = (s.firstOf? seen p).or (s.firstOf? rest p) := by
  simp only [firstOf?, List.find?_append]

theorem shared?_of_firstOf? (h : s.firstOf? seen p = some v) : s.shared? v = some p := by
  simpa using List.find?_some h

theorem firstOf?_isSome (hv : v ∈ seen) (h : s.shared? v = some p) :
    (s.firstOf? seen p).isSome = true := by
  rw [firstOf?, List.find?_isSome]
  exact ⟨v, hv, by simpa using h⟩

theorem firstOf?_skip (h : s.shared? x = none) :
    s.firstOf? (seen ++ [x]) p = s.firstOf? seen p := by
  rw [firstOf?_append, firstOf?, firstOf?, List.find?_singleton, h]
  simp

theorem firstOf?_snoc {q : Place} (h : s.shared? x = some q) :
    s.firstOf? (seen ++ [x]) p = (s.firstOf? seen p).or (if q = p then some x else none) := by
  rw [firstOf?_append, firstOf?, firstOf?, List.find?_singleton, h]
  simp

theorem standIn_of_none (h : s.shared? v = none) : s.standIn seen v = v := by
  rw [standIn, h]
  rfl

/-- What comes later does not change what stands for a value that has been met. -/
theorem standIn_append (hv : v ∈ seen) : s.standIn (seen ++ rest) v = s.standIn seen v := by
  unfold standIn
  cases h : s.shared? v with
  | none => rfl
  | some p =>
    obtain ⟨w, hw⟩ := Option.isSome_iff_exists.1 (firstOf?_isSome hv h)
    rw [Option.bind_some, Option.bind_some, firstOf?_append, hw]
    rfl

theorem shared?_standIn : s.shared? (s.standIn seen v) = s.shared? v := by
  unfold standIn
  cases h : s.shared? v with
  | none => exact h
  | some p =>
    rw [Option.bind_some]
    cases hw : s.firstOf? seen p with
    | none => exact h
    | some w => exact shared?_of_firstOf? hw

/-- The value that stands for another one is the same, or it refers to the same static field or
global property. -/
theorem standIn_eq_or : s.standIn seen v = v ∨
    ∃ p, p.isShared = true ∧ s.place? v = .ok (some p) ∧
      s.place? (s.standIn seen v) = .ok (some p) := by
  cases h : s.shared? v with
  | none => exact .inl (standIn_of_none h)
  | some p =>
    obtain ⟨hplace, hshared⟩ := shared?_eq_some.1 h
    exact .inr ⟨p, hshared, hplace, (shared?_eq_some.1 (shared?_standIn.trans h)).1⟩

theorem standIn_unique {w : ValueId} (hv : v ∈ seen) (h : s.shared? v = some p)
    (hw : s.shared? w = some p) : s.standIn seen v = s.standIn seen w := by
  obtain ⟨u, hu⟩ := Option.isSome_iff_exists.1 (firstOf?_isSome hv h)
  rw [standIn, standIn, h, hw, Option.bind_some, hu]
  rfl

theorem isPointer_standIn :
    s.isA Value.isPointer (s.standIn seen v) = s.isA Value.isPointer v := by
  cases h : s.shared? v with
  | none => rw [standIn_of_none h]
  | some p => rw [(value_of_shared? h).1, (value_of_shared? (shared?_standIn.trans h)).1]

theorem throughHeap_standIn : s.throughHeap (s.standIn seen v) = s.throughHeap v := by
  cases h : s.shared? v with
  | none => rw [standIn_of_none h]
  | some p => rw [(value_of_shared? h).2, (value_of_shared? (shared?_standIn.trans h)).2]

end StandIn

/-! What an assignment says, once its right side is known. -/

section Assignment

variable {i : StmtId} {target source : ValueId} (rep : ValueId → ValueId)
  (hk : s.kindOf? i = some (.assign target source)) (hv : s.value source = .ok a)

include hk hv

theorem mentions_assign : s.mentions i =
    if bindsFormal a then []
    else if a.isCall then target :: a.operands
    else if a.isPointer then [target, source] else [target] := by
  simp only [mentions, hk, isA_of_value hv, operandsOf_of_value hv]

/-- The survey chooses the kind of the edge that the statement asks for. -/
theorem edgeOf?_assign : s.edgeOf? rep i =
    if a.isAllocation then
      if s.isA Value.isPointer target ∧ ¬ s.throughHeap target then
        some ⟨source, rep target, .address, i⟩
      else none
    else if a.isPointer then
      (Surveying.edgeKind? (s.throughHeap target) (s.throughHeap source)).map
        (⟨rep source, rep target, ·, i⟩)
    else none := by
  simp only [edgeOf?, hk, isA_of_value hv]
  cases s.throughHeap target <;> cases s.throughHeap source <;> rfl

theorem allocationOf?_assign : s.allocationOf? rep i =
    if a.isAllocation ∧ s.throughHeap target then some ⟨source, rep target, i⟩ else none := by
  simp only [allocationOf?, hk, isA_of_value hv]

theorem callOf?_assign : s.callOf? i = if a.isCall then some a else none := by
  simp only [callOf?, hk, hv, Except.toOption, Option.filter_some]

omit hv in
theorem returnOf?_assign : s.returnOf? rep i = none := by
  simp only [returnOf?, hk]

end Assignment

/-! The call that a statement makes, and the sites that the class hierarchy gives for it. -/

variable {i : StmtId}

theorem callOf?_of_callExpr? {expr : ValueId} {value : Value}
    (h : s.callExpr? i = .ok (some expr)) (hvalue : s.value expr = .ok value)
    (hcall : value.isCall = true) : s.callOf? i = some value := by
  unfold callExpr? at h
  cases hstmt : s.stmt i with
  | error e => simp [hstmt, bind, Except.bind] at h
  | ok stmt =>
    obtain ⟨owner, kind⟩ := stmt
    simp only [hstmt, bind, Except.bind] at h
    cases kind with
    | call e =>
      cases h
      simp [callOf?, kindOf?, hstmt, hvalue, Except.toOption, hcall]
    | assign target source =>
      cases hsource : s.value source with
      | error e => simp [hsource] at h
      | ok a =>
        simp only [hsource] at h
        split at h
        · cases h
          simp [callOf?, kindOf?, hstmt, hvalue, Except.toOption, hcall]
        · cases h
    | _ => cases h

theorem eq_ok_of_ask {α : Type} {q : Except Fault α} {log log' : Array Notice} {a : α}
    (h : (liftM q : Scan α) log = .ok a log') : q = .ok a := by
  cases q with
  | error e => cases h
  | ok b =>
    cases h
    rfl

/-- A statement with resolved call sites makes a call. -/
theorem exists_callOf?_of_resolves {contents : List StaticSite} (h : s.Resolves i contents)
    (hne : contents ≠ []) : ∃ value, s.callOf? i = some value := by
  obtain ⟨log, log', hrun⟩ := h
  obtain ⟨expr?, log₁, hexpr, hrun⟩ := bind_eq_ok.1 hrun
  cases expr? with
  | none =>
    cases hrun
    exact absurd rfl hne
  | some expr =>
    obtain ⟨decl, log₂, -, hrun⟩ := bind_eq_ok.1 hrun
    obtain ⟨value, log₃, hvalue, hrun⟩ := bind_eq_ok.1 hrun
    refine ⟨value, callOf?_of_callExpr? (eq_ok_of_ask hexpr) (eq_ok_of_ask hvalue) ?_⟩
    cases value with
    | staticCall | instanceCall | pointerCall => rfl
    | _ =>
      cases hrun
      exact absurd rfl hne

end Scene

end PointsTo
