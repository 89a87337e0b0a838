import PointsTo.Analysis.Dispatch
import PointsTo.Proofs.Flow.Edges
import PointsTo.Proofs.Scene.Inheritance

/-! The class hierarchy resolves a call exactly if all objects that the call can be made on agree on
what it runs. -/
namespace PointsTo

section Runs

variable {ε σ γ : Type} {f : γ → EStateM ε σ Bool} {s : σ}

/-- A test that changes nothing selects as a filter does. -/
theorem filterM_run {q : γ → Bool} {l : List γ} (hf : ∀ x ∈ l, f x s = .ok (q x) s) :
    l.filterM f s = .ok (l.filter q) s := by
  have haux : ∀ (l acc : List γ), (∀ x ∈ l, f x s = .ok (q x) s) →
      l.filterAuxM f acc s = .ok ((l.filter q).reverse ++ acc) s := by
    intro l
    induction l with
    | nil => exact fun acc _ => rfl
    | cons x l ih =>
      intro acc hf
      rw [List.filterAuxM, bind_run_of_ok (hf x (.head _)), ih _ fun y hy => hf y (.tail _ hy)]
      cases hq : q x <;> simp [hq]
  rw [List.filterM, bind_run_of_ok (haux l [] hf)]
  simp only [List.append_nil, List.reverse_reverse]
  rfl

/-- A test that fails on one of the entries and changes nothing on the others fails. -/
theorem filterM_fails {l : List γ} (hf : ∀ x ∈ l, (∃ b, f x s = .ok b s) ∨ ∃ e, f x s = .error e s)
    (h : ∃ x ∈ l, ∃ e, f x s = .error e s) : ∃ e, l.filterM f s = .error e s := by
  have haux : ∀ (l acc : List γ), (∀ x ∈ l, (∃ b, f x s = .ok b s) ∨ ∃ e, f x s = .error e s) →
      (∃ x ∈ l, ∃ e, f x s = .error e s) → ∃ e, l.filterAuxM f acc s = .error e s := by
    intro l
    induction l with
    | nil => rintro acc - ⟨x, hx, -⟩; cases hx
    | cons x l ih =>
      intro acc hf h
      rcases hf x (.head _) with ⟨b, hb⟩ | ⟨e, he⟩
      · obtain ⟨y, hy, e, he⟩ := h
        rw [List.filterAuxM, bind_run_of_ok hb]
        refine ih _ (fun z hz => hf z (.tail _ hz)) ⟨y, ?_, e, he⟩
        exact (List.mem_cons.1 hy).resolve_left fun heq => by rw [heq, hb] at he; cases he
      · exact ⟨e, by simp only [List.filterAuxM, Bind.bind, EStateM.bind, he]⟩
  obtain ⟨e, he⟩ := haux l [] hf h
  exact ⟨e, by simp only [List.filterM, Bind.bind, EStateM.bind, he]⟩

end Runs

namespace Scene

/-- A method that an object of a class or of one of its subclasses has under that name. -/
def Candidate (s : Scene) (c : ClassId) (name : String) (m : MethodId) : Prop :=
  ∃ d, (d = c ∨ d ∈ s.subclasses c) ∧ s.inherited? d name = .ok (some m)

/-- A method with code of its own. -/
def Concrete (s : Scene) (m : MethodId) : Prop :=
  ∃ decl, s.method m = .ok decl ∧ decl.isAbstract = false

/-- What a call on an object of a class or of one of its subclasses can run. -/
def targets (s : Scene) (c : ClassId) (name : String) : Set MethodId :=
  {m | s.Candidate c name m ∧ s.Concrete m}

variable {s : Scene} {name : String} {c d : ClassId} {m : MethodId} {log : Array Notice}

theorem dispatch_of_inherited? {m? : Option MethodId} (h : s.inherited? c name = .ok m?)
    (log : Array Notice) : ∃ log', s.dispatch c name log = .ok m? log' := by
  cases ha : s.ancestry c with
  | error e =>
    rw [inherited?, ha] at h
    cases h
  | ok a =>
    rw [inherited?, ha] at h
    have hdeclared : s.declaredIn? name a.chain = .ok m? := h
    have hask {x : Except Fault (Option MethodId)} (hx : x = .ok m?) (log : Array Notice) :
        (liftM x : Scan (Option MethodId)) log = .ok m? log := by subst hx; rfl
    have hancestors : ∃ log', s.ancestors c log = .ok a.chain log' := by
      have hlift : (liftM (s.ancestry c) : Scan Ancestry) log = .ok a log := by rw [ha]; rfl
      rw [ancestors, bind_run_of_ok hlift]
      cases a.cycle with
      | none => exact ⟨_, rfl⟩
      | some name => exact ⟨_, rfl⟩
    obtain ⟨log', hlog'⟩ := hancestors
    exact ⟨log', by rw [dispatch, bind_run_of_ok hlog', hask hdeclared]⟩

namespace Numbered

variable (hs : s.Numbered)

include hs

theorem has_of_mem_subclasses (hd : d ∈ s.subclasses c) : s.Has .classDecl d := by
  obtain ⟨e, he, -⟩ := Relation.TransGen.head'_iff.1 (hs.mem_subclasses.1 hd)
  exact he.has

/-- A method of a subclass is declared by a subclass, or else the class itself has it. -/
theorem declared_of_inherits (hd : Relation.TransGen s.Extends d c) (h : s.Inherits name d m) :
    s.Inherits name c m ∨ ∃ e ∈ s.subclasses c, s.declared? name e = some m := by
  induction h with
  | own hm => exact .inr ⟨_, hs.mem_subclasses.2 hd, hm⟩
  | above _ hparent hm ih =>
    obtain ⟨e, he, hleads⟩ := Relation.TransGen.head'_iff.1 hd
    cases Option.some.inj (hparent.symm.trans he)
    rcases Relation.reflTransGen_iff_eq_or_transGen.1 hleads with rfl | hleads
    · exact .inl hm
    · exact ih hleads

/-- Looking down for declarations and looking up from every subclass find the same methods. -/
theorem candidate_iff (hc : s.Has .classDecl c) : s.Candidate c name m ↔
    s.Inherits name c m ∨ ∃ d ∈ s.subclasses c, s.declared? name d = some m := by
  constructor
  · rintro ⟨d, rfl | hd, hm⟩
    · exact .inl ((hs.inherited?_eq_iff hc).1 hm)
    · have hinherits := (hs.inherited?_eq_iff (hs.has_of_mem_subclasses hd)).1 hm
      exact hs.declared_of_inherits (hs.mem_subclasses.1 hd) hinherits
  · rintro (h | ⟨d, hd, hm⟩)
    · exact ⟨c, .inl rfl, (hs.inherited?_eq_iff hc).2 h⟩
    · exact ⟨d, .inr hd, (hs.inherited?_eq_iff (hs.has_of_mem_subclasses hd)).2 (.own hm)⟩

end Numbered

/-- Whether a method is there and has code of its own. -/
def isConcrete (s : Scene) (m : MethodId) : Bool :=
  match s.method m with
  | .ok decl => !decl.isAbstract
  | .error _ => false

theorem isConcrete_iff : s.isConcrete m = true ↔ s.Concrete m := by
  unfold isConcrete Concrete
  cases s.method m with
  | ok decl => simp
  | error e => simp

/-- The only one of several, if there is just one. -/
def sole (ms : List MethodId) : List MethodId :=
  match ms with
  | [m] => [m]
  | _ => []

theorem sole_eq_iff {ms : List MethodId} : sole ms = [m] ↔ ms = [m] := by
  unfold sole
  split
  · simp
  · next hne => exact ⟨nofun, fun h => absurd h (hne m)⟩

theorem sole_eq_nil {ms : List MethodId} (h : ∀ m, ms ≠ [m]) : sole ms = [] := by
  unfold sole
  split
  · exact absurd rfl (h _)
  · rfl

/-- The test for code of its own. -/
private theorem test_run (s : Scene) (m : MethodId) (log : Array Notice) :
    (do return !(← s.method m).isAbstract : Scan Bool) log =
      match s.method m with
      | .ok decl => .ok (!decl.isAbstract) log
      | .error e => .error e log := by
  cases hm : s.method m <;> rfl

/-- The hierarchy lists every candidate once and keeps those with code of their own. All of them
have to be there. -/
theorem Numbered.hierarchyTargets_run (hs : s.Numbered) {signature : Signature}
    (hc : s.classNamed? signature.owner = some c) (hknown : signature.hasUnknownOwner = false)
    (hfixed : Platform.isReceiverDependent signature.owner = false)
    (hname : signature.name ≠ Name.constructor) (log : Array Notice) :
    ∃ l : List MethodId, l.Nodup ∧ (∀ m, m ∈ l ↔ s.Candidate c signature.name m) ∧
      ((∀ m ∈ l, ∃ decl, s.method m = .ok decl) →
        ∃ log', s.hierarchyTargets signature log = .ok (sole (l.filter s.isConcrete)) log') ∧
      ((∃ m ∈ l, ∀ decl, s.method m ≠ .ok decl) →
        ∃ e log', s.hierarchyTargets signature log = .error e log') := by
  have hhas := hs.has_of_classNamed? hc
  obtain ⟨own, hinherited, hown⟩ := hs.inherited? signature.name hhas
  obtain ⟨log', hdispatch⟩ := dispatch_of_inherited? hinherited log
  have hbelow : (liftM (s.overrides signature.name (s.subclasses c)) : Scan (List MethodId)) log' =
      .ok ((s.subclasses c).filterMap (s.declared? signature.name)) log' := by
    rw [overrides_eq fun d hd => hs.has_of_mem_subclasses hd]
    rfl
  refine ⟨(((own.toList ++ (s.subclasses c).filterMap (s.declared? signature.name)).foldl
    (·.insert ·) (∅ : Std.TreeSet MethodId))).toList, ?_, fun m => ?_, ?_⟩
  · refine Std.TreeSet.distinct_toList.imp fun hne heq => hne ?_
    rw [heq]
    exact Std.ReflCmp.compare_self
  · rw [Std.TreeSet.mem_toList, mem_foldl_insert, hs.candidate_iff hhas, List.mem_append,
      List.mem_filterMap, Option.mem_toList, hown]
    simp
  · rw [hierarchyTargets, hknown, hfixed, Bool.or_false, if_neg Bool.false_ne_true, hc]
    dsimp only
    rw [bind_run_of_ok hdispatch, if_neg hname, bind_run_of_ok hbelow]
    generalize Std.TreeSet.toList _ = l
    constructor
    · intro hall
      have hfilter := filterM_run (f := fun m => (do return !(← s.method m).isAbstract : Scan Bool))
        (q := s.isConcrete) (s := log') (l := l) fun m hm => by
          obtain ⟨decl, hdecl⟩ := hall m hm
          rw [test_run, isConcrete, hdecl]
      refine ⟨log', ?_⟩
      rw [bind_run_of_ok hfilter]
      rcases l.filter s.isConcrete with _ | ⟨m, _ | ⟨m', rest⟩⟩ <;> rfl
    · rintro ⟨m, hm, hmissing⟩
      obtain ⟨e, he⟩ := filterM_fails
        (f := fun m => (do return !(← s.method m).isAbstract : Scan Bool)) (s := log') (l := l)
        (fun m _ => by rw [test_run]; cases s.method m <;> simp)
        ⟨m, hm, by rw [test_run]; cases h : s.method m <;> simp_all⟩
      exact ⟨e, log', by simp only [Bind.bind, EStateM.bind] at he ⊢; rw [he]⟩

end Scene

namespace Run

variable {p : Problem} {s : State} {site : DynamicSite} {o : NodeId} {a : Node} {owner : String}

/-- An object whose class has a method runs that one. -/
theorem callees_of_inherited? {d : ClassId} {m : MethodId} (ha : s.graph.At o a)
    (howner : a.objectClass? = some owner ∨
      a.isFunction = true ∧ owner = Platform.functionClass ∧
        runsFunction site.signature.name = false)
    (hd : p.scene.classNamed? owner = some d)
    (hm : p.scene.inherited? d site.signature.name = .ok (some m)) :
    ∃ log, callees p site o s = .ok [m] { s with log } := by
  obtain ⟨log, hlog⟩ := Scene.dispatch_of_inherited? hm s.log
  have hnode : node o s = .ok a s := by
    simp only [node, grow, Growing.node, FlowGraph.node_eq_ok.2 ha]
  have hclass : classCallee p (some owner) site.signature.name s = .ok (some m) { s with log } := by
    simp only [classCallee, Option.bind_some, hd, scan, hlog]
  have hbyClass : calleesByClass p site (some owner) s = .ok [m] { s with log } := by
    rw [calleesByClass, bind_run_of_ok hclass]
    rfl
  refine ⟨log, ?_⟩
  rw [callees, bind_run_of_ok hnode]
  rcases howner with hclass | ⟨hfun, rfl, hruns⟩
  · have hno : a.function? = none := by
      unfold Node.objectClass? at hclass
      unfold Node.function?
      cases hk : a.kind <;> simp_all
    rw [hno, hclass]
    exact hbyClass
  · obtain ⟨f, hf⟩ := Option.isSome_iff_exists.1 hfun
    rw [hf]
    simp only [hruns]
    exact hbyClass

end Run

/-- A list without repetitions has one entry if there is only one candidate for its entries. -/
private theorem eq_singleton_iff {l : List MethodId} (hnodup : l.Nodup) {t : MethodId} :
    l = [t] ↔ {m | m ∈ l} = ({t} : Set MethodId) := by
  constructor
  · rintro rfl
    ext m
    simp
  · intro h
    have hmem : ∀ m, m ∈ l ↔ m ∈ [t] := fun m => by
      rw [List.mem_singleton, ← Set.mem_singleton_iff, ← h, Set.mem_ofPred_eq]
    exact List.perm_singleton.1
      ((List.perm_ext_iff_of_nodup hnodup (List.nodup_singleton t)).2 hmem)

/-- A call is resolved by the class hierarchy to `t` exactly if `t` is the only method with code of its
own that objects of the class and of its subclasses have under that name. Then such an object runs
nothing else, unless the method it has is abstract. -/
theorem Problem.hierarchyTargets_exact {p : Problem} (hs : p.scene.Numbered) {signature : Signature}
    {c : ClassId} (hc : p.scene.classNamed? signature.owner = some c)
    (howner : signature.owner ∉ [Name.unknownClass, Platform.arrayClass, Platform.setClass,
      Platform.mapClass, Platform.functionClass])
    (hname : signature.name ≠ Name.constructor) (log : Array Notice) :
    (∀ d, d = c ∨ d ∈ p.scene.subclasses c → ∃ m?, p.scene.inherited? d signature.name = .ok m?) ∧
    ((∀ m, p.scene.Candidate c signature.name m → ∃ decl, p.scene.method m = .ok decl) →
      ∃ found log', p.scene.hierarchyTargets signature log = .ok found log' ∧
        (∀ t, found = [t] ↔ p.scene.targets c signature.name = {t}) ∧
        ((∀ t, p.scene.targets c signature.name ≠ {t}) → found = [])) ∧
    ((∃ m, p.scene.Candidate c signature.name m ∧ ∀ decl, p.scene.method m ≠ .ok decl) →
      ∃ e log', p.scene.hierarchyTargets signature log = .error e log') ∧
    ∀ t log', p.scene.hierarchyTargets signature log = .ok [t] log' →
      ∀ (s : State) (site : DynamicSite) (o : NodeId) (a : Node) (owner : String) (d : ClassId),
        site.signature = signature → s.graph.At o a →
        (a.objectClass? = some owner ∨
          a.isFunction = true ∧ owner = Platform.functionClass ∧
            Run.runsFunction signature.name = false) →
        p.scene.classNamed? owner = some d → d = c ∨ d ∈ p.scene.subclasses c →
        p.scene.inherited? d signature.name = .ok none ∨
          ∃ m log'', Run.callees p site o s = .ok [m] { s with log := log'' } ∧
            (m = t ∨ ∃ decl, p.scene.method m = .ok decl ∧ decl.isAbstract = true) := by
  have hknown : signature.hasUnknownOwner = false := by
    simp only [List.mem_cons, not_or] at howner
    simpa [Signature.hasUnknownOwner] using howner.1
  have hfixed : Platform.isReceiverDependent signature.owner = false := by
    simp only [List.mem_cons, not_or] at howner
    simp [Platform.isReceiverDependent, Platform.containerClasses, howner]
  have hhas := hs.has_of_classNamed? hc
  have hinherited : ∀ d, d = c ∨ d ∈ p.scene.subclasses c →
      ∃ m?, p.scene.inherited? d signature.name = .ok m? := by
    intro d hd
    have hd : p.scene.Has .classDecl d := by
      rcases hd with rfl | hd
      · exact hhas
      · exact hs.has_of_mem_subclasses hd
    obtain ⟨m?, hm?, -⟩ := hs.inherited? signature.name hd
    exact ⟨m?, hm?⟩
  obtain ⟨l, hnodup, hmem, hok, herror⟩ := hs.hierarchyTargets_run hc hknown hfixed hname log
  have htargets : {m | m ∈ l.filter p.scene.isConcrete} = p.scene.targets c signature.name := by
    ext m
    rw [Set.mem_ofPred_eq, List.mem_filter, hmem, Scene.isConcrete_iff]
    rfl
  have hsole : ∀ t, Scene.sole (l.filter p.scene.isConcrete) = [t] ↔
      p.scene.targets c signature.name = {t} := by
    intro t
    rw [Scene.sole_eq_iff, eq_singleton_iff (hnodup.filter _), htargets]
  refine ⟨hinherited, fun hall => ?_, fun ⟨m, hm, hmissing⟩ => ?_, ?_⟩
  · obtain ⟨log', hrun⟩ := hok fun m hm => hall m ((hmem m).1 hm)
    refine ⟨_, log', hrun, hsole, fun hno => Scene.sole_eq_nil fun t ht => ?_⟩
    exact hno t ((hsole t).1 (Scene.sole_eq_iff.2 ht))
  · exact herror ⟨m, (hmem m).2 hm, hmissing⟩
  · rintro t log' hrun s site o a owner d rfl ha hown hd hbelow
    -- the hierarchy has given an answer, so all candidates are there
    have hall : ∀ m ∈ l, ∃ decl, p.scene.method m = .ok decl := by
      by_contra hno
      push Not at hno
      obtain ⟨e, log'', he⟩ := herror hno
      rw [hrun] at he
      cases he
    obtain ⟨log'', hrun'⟩ := hok hall
    have honly := (hsole t).1 (EStateM.Result.ok.inj (hrun.symm.trans hrun')).1.symm
    obtain ⟨m?, hm?⟩ := hinherited d hbelow
    cases m? with
    | none => exact .inl hm?
    | some m =>
      obtain ⟨log'', hcallees⟩ := Run.callees_of_inherited? ha hown hd hm?
      refine .inr ⟨m, log'', hcallees, ?_⟩
      have hcandidate : p.scene.Candidate c site.signature.name m := ⟨d, hbelow, hm?⟩
      obtain ⟨decl, hdecl⟩ := hall m ((hmem m).2 hcandidate)
      cases habstract : decl.isAbstract with
      | true => exact .inr ⟨decl, hdecl, habstract⟩
      | false =>
        have hm : m ∈ p.scene.targets c site.signature.name := ⟨hcandidate, decl, hdecl, habstract⟩
        rw [honly] at hm
        exact .inl hm

/-- `A` and the second `B` are superclasses of each other, the first `B` is hidden, and only `A`
declares a method. -/
def cyclicClasses : Problem where
  scene := {
    classes := #[⟨⟨0⟩, "A", some "B", ⟨0⟩, none, false, (∅ : NameMap MethodId).insert "run" ⟨0⟩⟩,
      ⟨⟨1⟩, "B", none, ⟨0⟩, none, false, ∅⟩, ⟨⟨2⟩, "B", some "A", ⟨0⟩, none, false, ∅⟩]
    methods := #[⟨⟨0⟩, "run", ⟨0⟩, ⟨"A", "run"⟩, false, false, [], .void, some {}, none⟩] }

/-- A call of `B.run` is resolved through the cycle, and an object of class `A` agrees. -/
theorem Problem.hierarchyTargets_exact_cyclicClasses :
    cyclicClasses.scene.Numbered ∧ cyclicClasses.scene.classNamed? "B" = some ⟨2⟩ ∧
    cyclicClasses.scene.targets ⟨2⟩ "run" = {⟨0⟩} ∧
    ∀ (s : State) (site : DynamicSite) (o : NodeId) (a : Node), site.signature = ⟨"B", "run"⟩ →
      s.graph.At o a → a.objectClass? = some "A" →
      ∃ m log, Run.callees cyclicClasses site o s = .ok [m] { s with log } ∧ (m = ⟨0⟩ ∨
        ∃ decl, cyclicClasses.scene.method m = .ok decl ∧ decl.isAbstract = true) := by
  have hs : cyclicClasses.scene.Numbered := by decide +kernel
  have hc : cyclicClasses.scene.classNamed? (Signature.mk "B" "run").owner = some ⟨2⟩ := by
    decide +kernel
  obtain ⟨-, hexact, hfails, hagrees⟩ := hierarchyTargets_exact hs hc (by decide +kernel)
    (by decide +kernel) #[]
  have hrun : cyclicClasses.scene.hierarchyTargets ⟨"B", "run"⟩ #[] =
      .ok [⟨0⟩] #[.cyclicHierarchy "B"] := by rfl
  refine ⟨hs, hc, ?_, fun s site o a hsite ha hclass => ?_⟩
  · have hall : ∀ m, cyclicClasses.scene.Candidate ⟨2⟩ "run" m →
        ∃ decl, cyclicClasses.scene.method m = .ok decl := by
      intro m hm
      by_contra hno
      obtain ⟨e, log, he⟩ := hfails ⟨m, hm, fun decl hdecl => hno ⟨decl, hdecl⟩⟩
      exact absurd (hrun.symm.trans he) nofun
    obtain ⟨found, log, hrun', honly, -⟩ := hexact hall
    exact (honly ⟨0⟩).1 (EStateM.Result.ok.inj (hrun'.symm.trans hrun)).1
  · have hinherited : cyclicClasses.scene.inherited? ⟨0⟩ "run" = .ok (some ⟨0⟩) := by rfl
    refine (hagrees ⟨0⟩ _ hrun s site o a "A" ⟨0⟩ hsite ha (.inl hclass) (by decide +kernel)
      (.inr (by decide +kernel))).resolve_left fun hno => ?_
    exact absurd (hinherited.symm.trans hno) nofun

end PointsTo
