import PointsTo.Proofs.Analysis.Callbacks
import PointsTo.Proofs.Analysis.Callers
import PointsTo.Proofs.Analysis.Exchanges
import PointsTo.Proofs.Analysis.ReflectiveCalls

/-! Calls of the methods of containers. A call that is dispatched on a container is left to the
model of containers, which connects it with the slot for the elements. -/
namespace PointsTo

/-- The modelled methods of containers are no methods of anything else. -/
theorem ApiName.of?_className {kind : Container} {name : String} {api : ApiName}
    (h : of? kind.className name = some api) :
    (api.isStorageWrite || api.isStorageRead) = false ∧ api.isTask = false ∧
      api.isWorker = false ∧ of? Platform.functionClass name = none := by
  have hmem : (name, api) ∈ methodsOf kind.className := mem_of_lookup h
  have hall : ∀ m ∈ methodsOf kind.className,
      (m.2.isStorageWrite || m.2.isStorageRead) = false ∧ m.2.isTask = false ∧
        m.2.isWorker = false ∧ of? Platform.functionClass m.1 = none := by
    cases kind <;> decide
  exact hall _ hmem

/-- Each modelled method of containers does one thing. -/
theorem ApiName.writes_only {api : ApiName} (h : api.isContainerWrite = true) :
    (api = .mapGet || api.isContainerRead) = false ∧ api.isContainerCopy = false ∧
      api.isForEach = false := by
  revert h
  cases api <;> decide

theorem ApiName.reads_only {api : ApiName} (h : (api = .mapGet || api.isContainerRead) = true) :
    api.isContainerCopy = false ∧ api.isForEach = false := by
  revert h
  cases api <;> decide

theorem ApiName.copies_only {api : ApiName} (h : api.isContainerCopy = true) :
    api.isForEach = false := by
  revert h
  cases api <;> decide

/-- The iteration has one name for all kinds of containers. -/
theorem ApiName.isForEach_iff {kind : Container} {name : String} {api : ApiName}
    (h : of? kind.className name = some api) : api.isForEach = true ↔ name = "forEach" := by
  have hmem : (name, api) ∈ methodsOf kind.className := mem_of_lookup h
  have hall : ∀ m ∈ methodsOf kind.className, m.2.isForEach = true ↔ m.1 = "forEach" := by
    cases kind <;> decide
  exact hall _ hmem

/-- A method of a class without a superclass. -/
theorem Scene.dispatch_of_alone {scene : Scene} {c : ClassId} {owner : ClassDecl} {name : String}
    {m : MethodId} {log : Array Notice} (hclass : scene.classDecl c = .ok owner)
    (hsuper : owner.superName = none) (hmethod : owner.methods.get? name = some m) :
    scene.dispatch c name log = .ok (some m) log := by
  have hancestry : scene.ancestry c = .ok ⟨[c], none⟩ := by
    rw [ancestry, climb, superClass?, hclass]
    simp only [bind, Except.bind, pure, Except.pure, hsuper]
    rfl
  have hancestors : scene.ancestors c log = .ok [c] log := by
    rw [ancestors, hancestry]
    rfl
  rw [dispatch, bind_run_of_ok hancestors, declaredIn?, hclass]
  simp only [bind, Except.bind, hmethod]
  rfl

theorem Scene.globalProperty?_local {scene : Scene} {v : ValueId} {name : String} {type : Ty}
    (hv : scene.value v = .ok (.var name type)) : scene.globalProperty? v = .ok none := by
  rw [globalProperty?, hv]
  rfl

/-- The method `m` is declared under a name by the class of a kind of containers. As on the
platform, the class has no superclass and the method has no body. -/
inductive Problem.Declares (p : Problem) (kind : Container) (name : String) (m : MethodId) : Prop
    where
  | mk {c : ClassId} {owner : ClassDecl} {decl : MethodDecl} :
      p.scene.classNamed? kind.className = some c → p.scene.classDecl c = .ok owner →
      owner.name = kind.className → owner.superName = none → owner.methods.get? name = some m →
      p.scene.method m = .ok decl → decl.owner = c → decl.name = name → decl.hasBody = false →
      Declares p kind name m

/-- Whether `o` is a container of the given kind. -/
def FlowGraph.IsContainer (g : FlowGraph) (o : NodeId) (kind : Container) : Prop :=
  ∃ a, g.At o a ∧ a.container? = some kind

namespace FlowGraph

variable {g g' : FlowGraph} {scene : Scene} {n o : NodeId} {c : ContextId} {l : Location}
  {key : FieldKey}

/-- Whether `n` is the node of a location under a context. -/
def StandsFor (g : FlowGraph) (n : NodeId) (c : ContextId) (l : Location) : Prop :=
  ∃ a, g.At n a ∧ a.context = c ∧ a.location = l

theorem Persists.standsFor (h : g.Persists g') (hn : g.StandsFor n c l) : g'.StandsFor n c l := by
  obtain ⟨a, ha, hcontext, hlocation⟩ := hn
  obtain ⟨a', ha', hkeeps⟩ := h.nodes n a ha
  exact ⟨a', ha', hkeeps.context.trans hcontext, hkeeps.location.trans hlocation⟩

/-- A reference to the part `key` of what a node points to is one. -/
theorem Ordered.isFieldRef (h : g.Ordered scene) (hn : g.StandsFor n c (.fieldRef o key)) :
    g.IsFieldRef n o key := by
  obtain ⟨a, ha, -, hlocation⟩ := hn
  have hshape := h.kinds n a ha
  rw [hlocation] at hshape
  refine ⟨a, ha, ?_⟩
  cases hkind : a.kind <;> simp_all [Location.Fixes, NodeKind.shape]

theorem ensures_standsFor {stmt : Option StmtId} {kind : NodeKind} (hg : g.Consistent scene) :
    Ensures (Growing.intern c l stmt kind) g fun n g' => g'.StandsFor n c l := by
  refine ensures_intern.mono ?_
  rintro n g' (⟨hn, rfl⟩ | ⟨-, rfl, rfl⟩)
  · exact (hg.interned c l n).1 hn
  · exact ⟨_, at_withNode.2 (.inr ⟨rfl, rfl⟩), rfl, rfl⟩

theorem ensures_fieldRef_standsFor (hg : g.Consistent scene) :
    Ensures (Growing.fieldRef o key) g fun n g' => ∃ d, g'.StandsFor n d (.fieldRef o key) := by
  refine ensures_node_bind fun b _ => ensures_get_bind ?_
  split
  · next n hn => exact ensures_pure ⟨_, (hg.interned _ _ n).1 hn⟩
  refine ensures_bind (ensures_standsFor hg) fun n g₁ hn => ?_
  obtain ⟨a, ha, hcontext, hlocation⟩ := hn
  refine ensures_modify_bind (ensures_pure ⟨b.context, ?_⟩)
  refine ⟨_, at_modifyNode.2 ⟨a, ha, rfl⟩, ?_, ?_⟩
  · split <;> exact hcontext
  · split <;> exact hlocation

section Local

variable {v : ValueId} {name : String} {type : Ty}

/-- The node of a local is the one of the global object, or the local has its own under each
context. -/
theorem Consistent.standsFor_local (hg : g.Consistent scene)
    (hv : scene.value v = .ok (.var name type)) (hn : g.nodeOf? scene c v = .ok (some n)) :
    name = Name.globalObject ∧ g.StandsFor n .empty .globalObject ∨ g.StandsFor n c (.value v) := by
  obtain ⟨a, ha, hn⟩ := nodeOf?_eq_some.1 hn
  cases Except.ok.inj (hv.symm.trans ha)
  split at hn
  · next hglobal =>
    refine .inl ⟨?_, (hg.interned _ _ n).1 hn⟩
    simpa [Value.isGlobalObject, Value.localName?] using hglobal
  · obtain ⟨k, hk, hn⟩ := hn
    obtain ⟨p?, hp, rfl⟩ := known_eq_ok.1 hk
    cases Except.ok.inj ((place?_of_value (Scene.globalProperty?_local hv) hv).symm.trans hp)
    exact .inr ((hg.interned _ _ n).1 hn)

/-- Calls can be attached to the node of a local. -/
theorem Consistent.pointer_local (hg : g.Consistent scene)
    (hv : scene.value v = .ok (.var name type)) (hn : g.nodeOf? scene c v = .ok (some n)) :
    ∃ a, g.At n a ∧ a.pointer?.isSome = true := by
  rcases hg.standsFor_local hv hn with ⟨-, a, ha, -, hlocation⟩ | ⟨a, ha, -, hlocation⟩
  all_goals
    have hkind := hg.kinds n a ha
    rw [hlocation] at hkind
    refine ⟨a, ha, ?_⟩
  · cases ha : a.kind <;> simp_all [Location.Admits, NodeKind.shape, Node.pointer?]
  · have hplain := Scene.globalProperty?_local hv
    have hkind : scene.nodeKind v = .ok a.kind.shape := by
      refine hkind fun base key => ?_
      rw [place?_of_value hplain hv]
      rintro ⟨⟩
    have hshape : a.kind.shape = if name = Name.receiver then .receiver {} else .var {} := by
      rw [Scene.nodeKind, hplain, hv] at hkind
      exact (Except.ok.inj hkind).symm
    split at hshape <;> cases ha : a.kind <;> simp_all [NodeKind.shape, Node.pointer?]

end Local

end FlowGraph

theorem Node.kind_of_container? {a : Node} {kind : Container} (h : a.container? = some kind) :
    ∃ element, a.kind = .container kind element := by
  unfold Node.container? at h
  split at h
  · next kind' element hkind =>
    cases h
    exact ⟨element, hkind⟩
  · cases h

/-- A copy of a container is an array. -/
theorem FlowGraph.Ordered.isContainer {g : FlowGraph} {scene : Scene} {n : NodeId} {c : ContextId}
    {i : SiteId} (h : g.Ordered scene) (hn : g.StandsFor n c (.synthetic (.containerCopy i))) :
    g.IsContainer n .array := by
  obtain ⟨a, ha, -, hlocation⟩ := hn
  have hshape := h.kinds n a ha
  rw [hlocation] at hshape
  refine ⟨a, ha, ?_⟩
  cases hkind : a.kind <;> simp_all [Location.Fixes, NodeKind.shape, Node.container?]

section

variable {p : Problem} {w : Phase} {s t : State} {site : StaticSite} {c : ContextId} {o : NodeId}
  {object : Option NodeId} {kind : Container} {name : String} {m : MethodId} {api : ApiName}

namespace Problem.Declares

theorem not_hasBody (h : p.Declares kind name m) : ¬ p.HasBody m := by
  rintro ⟨decl', hdecl', hbody⟩
  cases h with
  | mk _ _ _ _ _ hdecl _ _ hno =>
    cases Except.ok.inj (hdecl.symm.trans hdecl')
    rw [hno] at hbody
    cases hbody

theorem apiOf? (h : p.Declares kind name m) :
    p.apiOf? m = .ok (ApiName.of? kind.className name) := by
  cases h with
  | mk _ hclass hname _ _ hdecl howner hmethod _ =>
    rw [Problem.apiOf?, Scene.classOfMethod, hdecl]
    simp only [bind, Except.bind, howner, hclass, hname, hmethod]
    rfl

theorem classCallee (h : p.Declares kind name m) :
    Run.classCallee p (some kind.className) name s = .ok (some m) s := by
  cases h with
  | mk hnamed hclass _ hsuper hmethod _ _ _ _ =>
    rw [Run.classCallee, Option.bind_some, hnamed]
    dsimp only
    rw [Run.scan, Scene.dispatch_of_alone hclass hsuper hmethod]

/-- A call on a container runs the method of its class. -/
theorem callees (h : p.Declares kind name m) (ho : s.graph.IsContainer o kind) {site : DynamicSite}
    (hname : site.signature.name = name) : Run.callees p site o s = .ok [m] s := by
  obtain ⟨a, ha, hcontainer⟩ := ho
  obtain ⟨element, hkind⟩ := Node.kind_of_container? hcontainer
  have hfunction : a.function? = none := by simp [Node.function?, hkind]
  have hclass : a.objectClass? = some kind.className := by simp [Node.objectClass?, hkind]
  rw [Run.callees, bind_run_of_ok (Run.node_eq ha), hfunction]
  dsimp only
  rw [Run.calleesByClass, hclass, hname, bind_run_of_ok h.classCallee]
  rfl

theorem isGeneral_run (h : p.Declares kind name m) : Model.isGeneral p m s = .ok false s := by
  cases h with
  | @mk _ owner _ _ hclass hname _ _ hdecl howner _ _ =>
    have hclass : p.scene.classOfMethod m = .ok owner := by
      rw [Scene.classOfMethod, hdecl]
      simp only [bind, Except.bind, howner, hclass]
    rw [Model.isGeneral, hdecl, hclass]
    refine congrArg (EStateM.Result.ok · s) ?_
    have hdepends : Platform.isReceiverDependent kind.className = true := by cases kind <;> decide
    rw [hname, hdepends]
    simp

end Problem.Declares

namespace Model
open Run

theorem at_of_node {a : Node} (h : node o s = .ok a t) : t = s ∧ s.graph.At o a := by
  rw [← bind_pure (node o)] at h
  exact (ensures_node_bind (R := fun a t => t = s ∧ s.graph.At o a)
    fun _ ha => ensures_pure ⟨rfl, ha⟩).1 h

theorem reflective?_none (h : ApiName.of? Platform.functionClass site.signature.name = none)
    {q : Option ApiName} (hq : containerApi? site object s = .ok q s) :
    reflective? site object s = .ok none s := by
  cases object with
  | none => rfl
  | some o =>
    obtain ⟨a, s₁, hnode, -⟩ := bind_eq_ok.1 hq
    obtain ⟨rfl, -⟩ := at_of_node hnode
    rw [reflective?, bind_run_of_ok hnode, h]
    split <;> rfl

/-- A call of a method of containers concerns no model but the one of containers. -/
theorem find?_declared (h : p.Declares kind site.signature.name site.callee)
    (hapi : ApiName.of? kind.className site.signature.name = some api) {q : Option ApiName}
    (hq : containerApi? site object s = .ok q s) :
    find? p site object s = .ok (q.map fun _ => .container) s := by
  obtain ⟨hstorage, htask, hworker, hfunction⟩ := ApiName.of?_className hapi
  have hown := h.apiOf?
  rw [hapi] at hown
  have haccepts : ∀ model, accepts p site object model s =
      .ok (decide (model = .container) && q.isSome) s := by
    intro model
    cases model with
    | storage =>
      rw [accepts, bind_run_of_ok (apiOf?_run hown)]
      exact congrArg (EStateM.Result.ok · s) hstorage
    | taskPool =>
      rw [accepts, bind_run_of_ok (apiOf?_run hown)]
      exact congrArg (EStateM.Result.ok · s) htask
    | worker =>
      rw [accepts, bind_run_of_ok (apiOf?_run hown)]
      exact congrArg (EStateM.Result.ok · s) hworker
    | reflection =>
      rw [accepts, bind_run_of_ok (reflective?_none hfunction hq)]
      rfl
    | sdk => exact h.isGeneral_run
    | container =>
      rw [accepts, bind_run_of_ok hq]
      rfl
  rw [find?, findM?_run haccepts]
  cases q <;> rfl

theorem containerApi?_container (ho : s.graph.IsContainer o kind) :
    containerApi? site (some o) s = .ok (ApiName.of? kind.className site.signature.name) s := by
  obtain ⟨a, ha, hcontainer⟩ := ho
  rw [containerApi?, bind_run_of_ok (node_eq ha), hcontainer]
  rfl

end Model

namespace Run

section Declared

variable (h : p.Declares kind site.signature.name site.callee)
  (hapi : ApiName.of? kind.className site.signature.name = some api)

include h hapi

theorem call_eq_handle {api' : ApiName}
    (hq : Model.containerApi? site (some o) s = .ok (some api') s) :
    call p site c (some o) s = Model.Containers.handle p api' site c o s := by
  have hfind : Model.find? p site (some o) s = .ok (some .container) s :=
    Model.find?_declared h hapi hq
  rw [call, bind_run_of_ok hfind]
  dsimp only [Model.handle]
  rw [bind_run_of_ok hq]

/-- On anything that is no container with such a method nothing happens. -/
theorem call_eq_nil (hq : Model.containerApi? site object s = .ok none s) :
    call p site c object s = .ok [] s := by
  have hfind : Model.find? p site object s = .ok none s := Model.find?_declared h hapi hq
  cases h with
  | @mk _ _ decl _ _ _ _ _ hdecl _ _ hbody =>
    rw [call_eq_wire hfind, wire, hdecl]
    have hlift : (liftM (Except.ok decl : Except Fault MethodDecl) : Run MethodDecl) s =
      .ok decl s := rfl
    rw [bind_run_of_ok hlift, hbody]
    rfl

/-- A call of a method of containers is left to their model, or nothing happens. -/
theorem handle_of_call (hknown : ∀ o ∈ object, o.index < s.graph.nodes.size) {new : List NodeId}
    (hrun : call p site c object s = .ok new t) :
    t = s ∨ ∃ (o : NodeId) (kind' : Container) (api' : ApiName),
      ApiName.of? kind'.className site.signature.name = some api' ∧
      Model.Containers.handle p api' site c o s = .ok new t := by
  have hnone : Model.containerApi? site object s = .ok none s → t = s := by
    intro hq
    rw [call_eq_nil h hapi hq] at hrun
    cases hrun
    rfl
  cases object with
  | none => exact .inl (hnone rfl)
  | some o =>
    obtain ⟨a, ha⟩ : ∃ a, s.graph.At o a := ⟨_, Array.getElem?_eq_getElem (hknown o rfl)⟩
    cases hcontainer : a.container? with
    | none =>
      refine .inl (hnone ?_)
      rw [Model.containerApi?, bind_run_of_ok (node_eq ha), hcontainer]
      rfl
    | some kind' =>
      have hq : Model.containerApi? site (some o) s =
          .ok (ApiName.of? kind'.className site.signature.name) s :=
        Model.containerApi?_container ⟨a, ha, hcontainer⟩
      cases hapi' : ApiName.of? kind'.className site.signature.name with
      | none => exact .inl (hnone (hapi' ▸ hq))
      | some api' =>
        rw [hapi'] at hq
        exact .inr ⟨o, kind', api', hapi', call_eq_handle h hapi hq ▸ hrun⟩

end Declared

/-- The calls that are made up meanwhile belong to the given method. -/
def Attributes (m : MethodId) (s t : State) : Prop :=
  ∀ q ∈ t.synthetic, q ∈ s.synthetic ∨
    ∃ call, t.calls.sites.dynamic? q.2 = some call ∧ call.caller = m

/-- What it means to call a value on behalf of a site. -/
theorem ensures_callPointer {pointer : NodeId} {args : List CallArg} :
    Ensures (callPointer site c pointer args) s fun r t =>
      CallsPointer site.id c pointer args s t r ∧ Attributes site.caller s t := by
  refine ensures_get_bind ?_
  split
  · next i hi => exact ensures_pure ⟨.known hi rfl, fun q hq => .inl hq⟩
  next hnew =>
  refine ensures_bind (Q := fun i s₁ => s₁.synthetic = s.synthetic ∧
    s₁.CallsThrough i pointer args ∧
    ∃ call, s₁.calls.sites.dynamic? i = some call ∧ call.caller = site.caller)
    (ensures_modifyGet ⟨rfl, ⟨_, SiteTable.dynamic?_addDynamic, rfl, rfl, rfl⟩, _,
      SiteTable.dynamic?_addDynamic, rfl⟩) ?_
  rintro i s₁ ⟨hold, hcall, hcaller⟩
  refine ensures_bind (Q := fun _ s₂ =>
    s₂.synthetic = ((site.id, pointer, args), i) :: s.synthetic ∧
    s₂.CallsThrough i pointer args ∧ s₂.calls = s₁.calls)
    (ensures_modify ⟨by rw [hold], hcall, rfl⟩) ?_
  rintro _ s₂ ⟨hsynthetic, hcall, hcalls⟩
  rw [← hcalls] at hcaller
  have hnewest : Attributes site.caller s s₂ := by
    rw [Attributes, hsynthetic]
    exact List.forall_mem_cons.2 ⟨.inr hcaller, fun q hq => .inl hq⟩
  refine ensures_node_bind fun a ha => ?_
  split
  · next hpointer =>
    obtain ⟨info, hinfo⟩ := Option.isSome_iff_exists.1 hpointer
    refine ensures_bind ensures_mapPointer ?_
    rintro _ _ rfl
    refine ensures_modify_bind (ensures_pure
      ⟨.attached hnew hsynthetic hcall ?_ ((mem_insert ..).2 (.inl rfl)), hnewest⟩)
    refine ⟨_, { info with dynamicCalls := info.dynamicCalls ++ [(i, c)] },
      FlowGraph.at_modifyNode.2 ⟨a, ha, rfl⟩, ?_, List.mem_append_right _ (.head _)⟩
    rw [if_pos rfl, Node.pointer?_mapPointer, hinfo, Option.map_some]
  · next hpointer =>
    exact ensures_modify_bind (ensures_pure
      ⟨.refused hsynthetic ha (by simpa using hpointer), hnewest⟩)

/-- The call is recorded then. If it was not before, it is registered for the context that asks. -/
theorem CallsPointer.recorded {i : SiteId} {pointer : NodeId} {args : List CallArg}
    {r : Option SiteId} (h : CallsPointer i c pointer args s t r) :
    (∃ k, ((i, pointer, args), k) ∈ t.synthetic) ∧
      ∀ q ∈ t.synthetic, q ∈ s.synthetic ∨ q.1.2.1 = pointer ∧ ∀ b, t.graph.At pointer b →
        b.pointer?.isSome = true → t.graph.Registers pointer (q.2, c) := by
  cases h with
  | known hlookup heq =>
    subst heq
    exact ⟨⟨_, mem_of_lookup hlookup⟩, fun q hq => .inl hq⟩
  | attached _ hsynthetic _ hattached _ =>
    obtain ⟨b, info, hb, hinfo, hd⟩ := hattached
    rw [hsynthetic]
    exact ⟨⟨_, .head _⟩, List.forall_mem_cons.2
      ⟨.inr ⟨rfl, fun _ _ _ => ⟨b, hb, info, hinfo, .inl hd⟩⟩, fun q hq => .inl hq⟩⟩
  | refused hsynthetic hb hno =>
    rw [hsynthetic]
    refine ⟨⟨_, .head _⟩, List.forall_mem_cons.2 ⟨.inr ⟨rfl, fun b' hb' hsome => ?_⟩,
      fun q hq => .inl hq⟩⟩
    cases Option.some.inj (hb.symm.trans hb')
    rw [hno] at hsome
    cases hsome

end Run

namespace State

/-- The elements of what an argument points to are loaded into the node `n`. -/
def Spreads (p : Problem) (s : State) (c : ContextId) (a : CallArg) (n : NodeId) : Prop :=
  a.Carries p.scene → ∃ x d r, s.NodeAt p c a x ∧ s.graph.StandsFor r d (.fieldRef x .element) ∧
    s.graph.Edge r n .load

/-- The target of a call points to an array of its own, which has the elements of the container and,
for a concatenation, the elements of what the arguments point to. -/
def Duplicates (p : Problem) (s : State) (api : ApiName) (site : StaticSite) (c : ContextId)
    (e : NodeId) : Prop :=
  ∀ target, site.target = some target → ∃ y array slot,
    s.graph.nodeOf? p.scene c target = .ok (some y) ∧
    s.graph.StandsFor array c (.synthetic (.containerCopy site.id)) ∧
    s.graph.IsField slot array .element ∧ s.graph.Edge array y .address ∧
    s.graph.Edge e slot .copy ∧
    (api = .arrayConcat → ∀ a ∈ site.args.getD [], s.Spreads p c a slot)

/-- The first argument of a call is called with the elements. -/
def Iterates (p : Problem) (s : State) (site : StaticSite) (c : ContextId) (e : NodeId) : Prop :=
  ∀ a, (site.args.getD [])[0]? = some a → a.Carries p.scene →
    ∃ x k, s.NodeAt p c a x ∧ ((site.id, x, [.node e]), k) ∈ s.synthetic

/-- What is called on behalf of a site is the first argument under a context. The call belongs to
the caller of the site and is registered for this context. -/
structure Asks (p : Problem) (s : State) (site : StaticSite) (c : ContextId)
    (r : (SiteId × NodeId × List CallArg) × SiteId) : Prop where
  argument : ∀ a, (site.args.getD [])[0]? = some a → a.Carries p.scene → s.NodeAt p c a r.1.2.1
  registered : ∀ b, s.graph.At r.1.2.1 b → b.pointer?.isSome = true →
    s.graph.Registers r.1.2.1 (r.2, c)
  caller : ∃ call, s.calls.sites.dynamic? r.2 = some call ∧ call.caller = site.caller

/-- A call of a method of containers is connected with the node `e` for the elements. -/
structure Exchanged (p : Problem) (s : State) (api : ApiName) (site : StaticSite) (c : ContextId)
    (e : NodeId) : Prop where
  writes : api.isContainerWrite = true →
    ∀ a ∈ Model.Containers.stored api (site.args.getD []), s.Feeds p c a e
  reads : (api = .mapGet || api.isContainerRead) = true → s.Delivers p site c e
  copies : api.isContainerCopy = true → s.Duplicates p api site c e
  iterates : api.isForEach = true → s.Iterates p site c e

variable {e n : NodeId} {a : CallArg}

theorem Spreads.retains (h : s.Spreads p c a n) (hr : s.Retains p t) : t.Spreads p c a n := by
  intro hcarries
  obtain ⟨x, d, r, hx, hr', hedge⟩ := h hcarries
  exact ⟨x, d, r, hx.retains hr, hr.graph.standsFor hr', hr.graph.edge hedge⟩

theorem Duplicates.retains (h : s.Duplicates p api site c e) (hr : s.Retains p t) :
    t.Duplicates p api site c e := by
  intro target htarget
  obtain ⟨y, array, slot, hy, harray, hslot, haddress, hown, hothers⟩ := h target htarget
  exact ⟨y, array, slot, hr.nodeOf _ _ _ hy, hr.graph.standsFor harray, hr.graph.isField hslot,
    hr.graph.edge haddress, hr.graph.edge hown,
    fun hconcat a ha => (hothers hconcat a ha).retains hr⟩

theorem Exchanged.leadsTo (h : s.Exchanged p api site c e) (hl : s.LeadsTo p t) (hs : s.Sane p) :
    t.Exchanged p api site c e := by
  have hr := hl.retains hs
  refine ⟨fun hw a ha => (h.writes hw a ha).retains hr, fun hread => (h.reads hread).retains hr,
    fun hcopy => (h.copies hcopy).retains hr, fun hiter a ha hcarries => ?_⟩
  obtain ⟨x, k, hx, hk⟩ := h.iterates hiter a ha hcarries
  exact ⟨x, k, hx.retains hr, hl.synthetic _ hk⟩

end State

namespace Model.Containers
open Run State

variable {e : NodeId}

theorem ensures_element (hs : s.Sane p) :
    Ensures (grow (Growing.element o)) s fun e t => s.Steps p w t ∧ t.graph.IsField e o .element ∧
      t.synthetic = s.synthetic := by
  refine (ensures_grow (FlowGraph.ensures_element hs.graph)).mono ?_
  rintro e _ ⟨g, rfl, hgrows, he⟩
  exact ⟨.single (.nodes hgrows), he, rfl⟩

theorem ensures_write (hs : s.Sane p) :
    Ensures (write p api site c e) s fun _ t => s.Steps p w t ∧
      ∀ a ∈ stored api (site.args.getD []), t.Feeds p c a e := by
  refine ensures_bind (ensures_mapM_each (I := fun t => s.Steps p w t)
    (P := fun a t => t.Feeds p c a e) _ .refl fun a _ t ht => ?_)
    fun _ t h => ensures_pure ⟨h.1, h.2.1⟩
  have hst := ht.sane hs
  have hkeeps : ∀ u, t.Steps p w u → ∀ b, t.Feeds p c b e → u.Feeds p c b e :=
    fun u hu b hb => hb.retains (hu.retains hst)
  refine ensures_bind (ensures_argument (w := w) hst) ?_
  rintro x? t₁ ⟨ht₁, hx⟩
  split
  · next x =>
    refine ensures_bind (ensures_flow (w := w) (by decide) (ht₁.sane hst)) ?_
    rintro _ t₂ ⟨ht₂, hedge⟩
    refine ensures_pure ⟨(ht.trans ht₁).trans ht₂, fun hcarries => ?_, hkeeps t₂ (ht₁.trans ht₂)⟩
    obtain ⟨x', hx', hnode⟩ := hx hcarries
    cases hx'
    exact ⟨x, hnode.retains (ht₂.retains (ht₁.sane hst)), hedge⟩
  · refine ensures_pure ⟨ht.trans ht₁, fun hcarries => ?_, hkeeps t₁ ht₁⟩
    obtain ⟨x, hx, -⟩ := hx hcarries
    cases hx

theorem ensures_read (hs : s.Sane p) :
    Ensures (read p site c e) s fun _ t => s.Steps p w t ∧ t.Delivers p site c e := by
  refine ensures_bind (ensures_targetNode (w := w) hs) ?_
  rintro y? s₁ ⟨h₁, hy⟩
  split
  · next y =>
    refine ensures_bind (ensures_flow (w := w) (by decide) (h₁.sane hs)) ?_
    rintro _ t ⟨ht, hedge⟩
    refine ensures_pure ⟨h₁.trans ht, fun target htarget => ?_⟩
    obtain ⟨y', hy', hnode⟩ := hy target htarget
    cases hy'
    exact ⟨y, (ht.retains (h₁.sane hs)).nodeOf _ _ _ hnode, hedge⟩
  · refine ensures_pure ⟨h₁, fun target htarget => ?_⟩
    obtain ⟨y, hy, -⟩ := hy target htarget
    cases hy

theorem ensures_spread {slot : NodeId} (hs : s.Sane p) :
    Ensures ((site.args.getD []).mapM fun a => do
      match ← argument p a c site.stmt with
      | none => return []
      | some other =>
        let elements ← grow (Growing.fieldRef other .element)
        return (← flow elements slot .load site.stmt).toList) s fun _ t =>
      s.Steps p w t ∧ ∀ a ∈ site.args.getD [], t.Spreads p c a slot := by
  refine (ensures_mapM_each (I := fun t => s.Steps p w t) (P := fun a t => t.Spreads p c a slot) _
    .refl fun a _ t ht => ?_).mono fun _ t h => ⟨h.1, h.2.1⟩
  have hst := ht.sane hs
  have hkeeps : ∀ u, t.Steps p w u → ∀ b, t.Spreads p c b slot → u.Spreads p c b slot :=
    fun u hu b hb => hb.retains (hu.retains hst)
  refine ensures_bind (ensures_argument (w := w) hst) ?_
  rintro x? t₁ ⟨ht₁, hx⟩
  have hst₁ := ht₁.sane hst
  split
  · refine ensures_pure ⟨ht.trans ht₁, fun hcarries => ?_, hkeeps t₁ ht₁⟩
    obtain ⟨x, hx, -⟩ := hx hcarries
    cases hx
  next x =>
  refine ensures_bind (ensures_grow ((FlowGraph.ensures_fieldRef hst₁.graph).and
    (FlowGraph.ensures_fieldRef_standsFor hst₁.graph))) ?_
  rintro r _ ⟨g, rfl, hgrows, d, hr⟩
  have ht₂ : t₁.Steps p w { t₁ with graph := g } := .single (.nodes hgrows)
  refine ensures_bind (ensures_flow (w := w) (by decide) (ht₂.sane hst₁)) ?_
  rintro _ t₃ ⟨ht₃, hedge⟩
  refine ensures_pure ⟨(ht.trans ht₁).trans (ht₂.trans ht₃), fun hcarries => ?_,
    hkeeps t₃ (ht₁.trans (ht₂.trans ht₃))⟩
  obtain ⟨x', hx', hnode⟩ := hx hcarries
  cases hx'
  have hr₃ := ht₃.retains (ht₂.sane hst₁)
  exact ⟨x, d, r, hnode.retains ((ht₂.trans ht₃).retains hst₁), hr₃.graph.standsFor hr, hedge⟩

theorem ensures_copy (hw : w ≠ .quiet) (hs : s.Sane p) :
    Ensures (copy p api site c e) s fun _ t => s.Steps p w t ∧ t.Duplicates p api site c e := by
  refine ensures_bind (ensures_targetNode (w := w) hs) ?_
  rintro y? s₁ ⟨h₁, hy⟩
  have hs₁ := h₁.sane hs
  split
  · refine ensures_pure ⟨h₁, fun target htarget => ?_⟩
    obtain ⟨y, hy, -⟩ := hy target htarget
    cases hy
  next y =>
  refine ensures_bind (ensures_grow ((FlowGraph.ensures_synthetic hs₁.graph).and
    (FlowGraph.ensures_standsFor hs₁.graph))) ?_
  rintro array _ ⟨g, rfl, hgrows, harray⟩
  have h₂ : s₁.Steps p w { s₁ with graph := g } := .single (.nodes hgrows)
  have hs₂ := h₂.sane hs₁
  refine ensures_bind (ensures_element (w := w) hs₂) ?_
  rintro slot s₃ ⟨h₃, hslot, -⟩
  have hs₃ := h₃.sane hs₂
  refine ensures_bind (ensures_address (w := w) hw hs₃) ?_
  rintro _ s₄ ⟨h₄, haddress⟩
  have hs₄ := h₄.sane hs₃
  refine ensures_bind (ensures_flow (w := w) (by decide) hs₄) ?_
  rintro new s₅ ⟨h₅, hown⟩
  have hs₅ := h₅.sane hs₄
  have hdone : ∀ t, s₅.Steps p w t →
      (api = .arrayConcat → ∀ a ∈ site.args.getD [], t.Spreads p c a slot) →
      s.Steps p w t ∧ t.Duplicates p api site c e := by
    intro t ht hothers
    have h₂₅ := (h₂.trans h₃).trans (h₄.trans h₅)
    refine ⟨h₁.trans (h₂₅.trans ht), fun target htarget => ?_⟩
    obtain ⟨y', hy', hnode⟩ := hy target htarget
    cases hy'
    have hr₂ := (h₃.trans (h₄.trans (h₅.trans ht))).retains hs₂
    have hr₃ := (h₄.trans (h₅.trans ht)).retains hs₃
    exact ⟨y, array, slot, ((h₂₅.trans ht).retains hs₁).nodeOf _ _ _ hnode,
      hr₂.graph.standsFor harray, hr₃.graph.isField hslot,
      ((h₅.trans ht).retains hs₄).graph.edge haddress, (ht.retains hs₅).graph.edge hown, hothers⟩
  split
  · next hother => exact ensures_pure (hdone s₅ .refl fun h => absurd h hother)
  · refine ensures_bind (ensures_spread (w := w) hs₅) ?_
    rintro _ t ⟨ht, hothers⟩
    exact ensures_pure (hdone t ht fun _ => hothers)

theorem stays_argumentAt {i : Nat} : Stays p.scene (argumentAt p site c i) := by
  unfold argumentAt
  split
  · unfold argument
    split
    · exact .pure _
    · refine .bind (stays_lift _) fun value => ?_
      split
      · exact .bind stays_value fun _ => .pure _
      · exact .pure _
  · exact .pure _

theorem ensures_forEach (hs : s.Serves p ⟨c, site.id⟩) :
    Ensures (forEach p site c e) s fun _ t => s.Steps p w t ∧ t.Iterates p site c e ∧
      ∀ r ∈ t.synthetic, r ∈ s.synthetic ∨ t.Asks p site c r := by
  refine ensures_bind ((ensures_argumentAt (w := w) hs.1).and (stays_argumentAt s hs.1.graph)) ?_
  rintro x? s₁ ⟨⟨h₁, hx⟩, hstill⟩
  have hold : s₁.synthetic = s.synthetic := hstill.calm.synthetic
  split
  · refine ensures_modify_bind (ensures_pure ⟨h₁.tail (.records (.log _)), fun a ha hcarries => ?_,
      fun r hr => .inl (hold ▸ hr)⟩)
    obtain ⟨x, hx, -⟩ := hx a ha hcarries
    cases hx
  next x =>
  have hserves₁ := h₁.serves hs
  have hx : ∀ a, (site.args.getD [])[0]? = some a → a.Carries p.scene → s₁.NodeAt p c a x := by
    intro a ha hcarries
    obtain ⟨x', hx', hnode⟩ := hx a ha hcarries
    cases hx'
    exact hnode
  refine ensures_bind ((walks_callPointer (w := w) s₁ hserves₁).and ensures_callPointer) ?_
  rintro k? t ⟨ht, hcalls, hcaller⟩
  have hx : ∀ a, (site.args.getD [])[0]? = some a → a.Carries p.scene → t.NodeAt p c a x :=
    fun a ha hcarries => (hx a ha hcarries).retains (ht.retains hserves₁.1)
  obtain ⟨⟨k, hk⟩, hnew⟩ := hcalls.recorded
  have hall : s.Steps p w t ∧ t.Iterates p site c e ∧
      ∀ r ∈ t.synthetic, r ∈ s.synthetic ∨ t.Asks p site c r := by
    refine ⟨h₁.trans ht, fun a ha hcarries => ⟨x, k, hx a ha hcarries, hk⟩, fun r hr => ?_⟩
    rw [← hold]
    rcases hnew r hr, hcaller r hr with ⟨hmem | ⟨heq, hregisters⟩, hmem | hcall⟩
    · exact .inl hmem
    · exact .inl hmem
    · exact .inl hmem
    · refine .inr ⟨?_, ?_, hcall⟩ <;> rw [heq]
      exacts [hx, hregisters]
  split <;> exact ensures_pure hall

theorem ensures_handle (hw : w ≠ .quiet) (hs : s.Serves p ⟨c, site.id⟩) :
    Ensures (handle p api site c o) s fun _ t => s.Steps p w t ∧
      (∃ e, t.graph.IsField e o .element ∧ t.Exchanged p api site c e) ∧
      (api.isForEach = true → ∀ r ∈ t.synthetic, r ∈ s.synthetic ∨ t.Asks p site c r) := by
  refine ensures_bind (ensures_element (w := w) hs.1) ?_
  rintro e s₁ ⟨h₁, he, hold⟩
  have hserves₁ := h₁.serves hs
  have hdone : ∀ t, s₁.Steps p w t → t.Exchanged p api site c e → s.Steps p w t ∧
      ∃ e, t.graph.IsField e o .element ∧ t.Exchanged p api site c e := fun t ht hexchanged =>
    ⟨h₁.trans ht, e, (ht.retains hserves₁.1).graph.isField he, hexchanged⟩
  split
  · next hwrite =>
    obtain ⟨hread, hcopy, hiter⟩ := ApiName.writes_only hwrite
    refine (ensures_write (w := w) hserves₁.1).mono ?_
    rintro _ t ⟨ht, hwrites⟩
    obtain ⟨hsteps, hexchanged⟩ := hdone t ht
      ⟨fun _ => hwrites, by simp [hread], by simp [hcopy], by simp [hiter]⟩
    exact ⟨hsteps, hexchanged, by simp [hiter]⟩
  split
  · next hwrite hread =>
    obtain ⟨hcopy, hiter⟩ := ApiName.reads_only hread
    refine (ensures_read (w := w) hserves₁.1).mono ?_
    rintro _ t ⟨ht, hreads⟩
    obtain ⟨hsteps, hexchanged⟩ := hdone t ht
      ⟨fun h => absurd h hwrite, fun _ => hreads, by simp [hcopy], by simp [hiter]⟩
    exact ⟨hsteps, hexchanged, by simp [hiter]⟩
  split
  · next hwrite hread hcopy =>
    have hiter := ApiName.copies_only hcopy
    refine (ensures_copy hw hserves₁.1).mono ?_
    rintro _ t ⟨ht, hcopies⟩
    obtain ⟨hsteps, hexchanged⟩ := hdone t ht
      ⟨fun h => absurd h hwrite, fun h => absurd h hread, fun _ => hcopies, by simp [hiter]⟩
    exact ⟨hsteps, hexchanged, by simp [hiter]⟩
  split
  · next hwrite hread hcopy _ =>
    refine (ensures_forEach (w := w) hserves₁).mono ?_
    rintro _ t ⟨ht, hiterates, hasks⟩
    obtain ⟨hsteps, hexchanged⟩ := hdone t ht
      ⟨fun h => absurd h hwrite, fun h => absurd h hread, fun h => absurd h hcopy,
        fun _ => hiterates⟩
    exact ⟨hsteps, hexchanged, fun _ r hr => hold ▸ hasks r hr⟩
  · next hwrite hread hcopy hiter =>
    obtain ⟨hsteps, hexchanged⟩ := hdone s₁ .refl
      ⟨fun h => absurd h hwrite, fun h => absurd h hread, fun h => absurd h hcopy,
        fun h => absurd h hiter⟩
    exact ensures_pure ⟨hsteps, hexchanged, fun h => absurd h hiter⟩

end Model.Containers

namespace State

theorem Retains.isContainer_iff (h : s.Retains p t) (ho : o.index < s.graph.nodes.size) :
    s.graph.IsContainer o kind ↔ t.graph.IsContainer o kind := by
  obtain ⟨a, a', ha, ha', hshape⟩ := h.looksLike ho
  have hsame : a'.container? = a.container? := (Node.eq_of_shape hshape).2.2.2.2
  constructor
  · rintro ⟨b, hb, hkind⟩
    cases Option.some.inj (ha.symm.trans hb)
    exact ⟨a', ha', hsame.trans hkind⟩
  · rintro ⟨b, hb, hkind⟩
    cases Option.some.inj (ha'.symm.trans hb)
    exact ⟨a, ha, hsame.symm.trans hkind⟩

theorem Made.static? (h : s.Made p site c object) : s.calls.sites.static? site.id = some site := by
  obtain ⟨t, t', ht, hplaces, hto⟩ := h
  have hst := Problem.sane_of_history ht
  have hsteps := hplaces.steps hst
  exact ((hsteps.retains hst).trans (hto.retains (hsteps.sane hst))).calls.sites.static?
    hplaces.filed

/-- A call of a method that was made on a container is connected with the slot for the elements. -/
theorem Made.exchanged (h : s.Made p site c (some o)) (ho : s.graph.IsContainer o kind)
    (hdecl : p.Declares kind site.signature.name site.callee)
    (hapi : ApiName.of? kind.className site.signature.name = some api) :
    ∃ e, s.graph.IsField e o .element ∧ s.Exchanged p api site c e := by
  obtain ⟨t, t', ht, hplaces, hto⟩ := h
  have hst := Problem.sane_of_history ht
  have hsteps := hplaces.steps hst
  have hretains := (hsteps.retains hst).trans (hto.retains (hsteps.sane hst))
  have hot := (hretains.isContainer_iff (hplaces.known o rfl)).2 ho
  obtain ⟨new, hrun⟩ := hplaces.run
  have hq : Model.containerApi? site (some o) t = .ok (some api) t :=
    hapi ▸ Model.containerApi?_container hot
  rw [Run.call_eq_handle hdecl hapi hq] at hrun
  have hserves := hst.serves_call hplaces.context hplaces.filed
  obtain ⟨-, ⟨e, he, hexchanged⟩, -⟩ :=
    (Model.Containers.ensures_handle (w := .dispatch) (by decide) hserves).1 hrun
  have hst' := hsteps.sane hst
  exact ⟨e, (hto.retains hst').graph.isField he, hexchanged.leadsTo (hto.leadsTo hst') hst'⟩

/-- What is called on behalf of an iteration is asked for by the iteration. -/
theorem Places.asks (h : s.Places p site c object t) (hs : s.Sane p)
    (hdecl : p.Declares kind site.signature.name site.callee)
    (hapi : ApiName.of? kind.className site.signature.name = some api)
    (hiter : api.isForEach = true) : ∀ r ∈ t.synthetic, r ∈ s.synthetic ∨ t.Asks p site c r := by
  obtain ⟨new, hrun⟩ := h.run
  rcases Run.handle_of_call hdecl hapi h.known hrun with rfl | ⟨o, kind', api', hapi', hhandle⟩
  · exact fun r hr => .inl hr
  · have hiter' : api'.isForEach = true :=
      (ApiName.isForEach_iff hapi').2 ((ApiName.isForEach_iff hapi).1 hiter)
    have hserves := hs.serves_call h.context h.filed
    exact ((Model.Containers.ensures_handle (w := .dispatch) (by decide) hserves).1 hhandle).2.2
      hiter'

/-- What is called on behalf of an iteration over a local function value is registered for the
context that asked for it first. Unless the value is the global object, that is its own. -/
theorem History.registers {r : (SiteId × NodeId × List CallArg) × SiteId} {v : ValueId}
    {type : Ty} (h : (initial p.settings).History p s) (hr : r ∈ s.synthetic)
    (hsite : s.calls.sites.static? r.1.1 = some site)
    (hdecl : p.Declares kind site.signature.name site.callee)
    (hapi : ApiName.of? kind.className site.signature.name = some api)
    (hiter : api.isForEach = true) (ha : (site.args.getD [])[0]? = some (.value v))
    (hv : p.scene.value v = .ok (.var name type))
    (hx : s.graph.nodeOf? p.scene c v = .ok (some r.1.2.1)) :
    ∃ c₀ call, (name ≠ Name.globalObject → c₀ = c) ∧ s.graph.Registers r.1.2.1 (r.2, c₀) ∧
      s.calls.sites.dynamic? r.2 = some call ∧ call.caller = site.caller := by
  obtain ⟨t, t', site', c₀, object, ht, hplaces, hto, hnew, hold, hid⟩ := h.exists_places hr
  have hst := Problem.sane_of_history ht
  have hsteps := hplaces.steps hst
  have hst' := hsteps.sane hst
  have hs := Problem.sane_of_history h
  have hretains := hto.retains hst'
  have hsite' := ((hsteps.retains hst).trans hretains).calls.sites.static? hplaces.filed
  rw [hid] at hsite'
  cases Option.some.inj (hsite.symm.trans hsite')
  have hasks := (hplaces.asks hst hdecl hapi hiter r hold).resolve_left hnew
  have hnode : t'.graph.nodeOf? p.scene c₀ v = .ok (some r.1.2.1) :=
    hasks.argument _ ha ⟨_, hv, rfl⟩
  obtain ⟨b, hb, hpointer⟩ := hst'.graph.pointer_local hv hnode
  obtain ⟨call, hcall, hcaller⟩ := hasks.caller
  -- Later calls find the site in the table, so only the context that asked first is registered.
  refine ⟨c₀, call, fun hname => ?_,
    (hto.leadsTo hst').keeps_registers (hasks.registered b hb hpointer),
    hretains.calls.sites.dynamic? hcall, hcaller⟩
  obtain ⟨a, ha, hcontext, -⟩ := hretains.graph.standsFor
    ((hst'.graph.standsFor_local hv hnode).resolve_left fun hglobal => hname hglobal.1)
  obtain ⟨a', ha', hcontext', -⟩ :=
    (hs.graph.standsFor_local hv hx).resolve_left fun hglobal => hname hglobal.1
  cases Option.some.inj (ha.symm.trans ha')
  exact hcontext.symm.trans hcontext'

end State

end

end PointsTo
