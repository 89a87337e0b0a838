import PointsTo.Proofs.Scene.Check
import PointsTo.Proofs.Scene.Trails
import PointsTo.Scene.Scope

/-! Lexical scoping: what a method does not declare is looked for in the methods around it, in the
module code and in the imports of the file. -/
namespace PointsTo.Scene

variable {s : Scene} {m o : MethodId} {v d : ValueId} {name : String} {seen chain : List MethodId}

/-- The method that a method stands in. -/
def outer? (s : Scene) (m : MethodId) : Option MethodId := (s.methods[m.index]?).bind (·.outer)

/-- What a method declares under a name, with the method. -/
def localIn? (s : Scene) (name : String) (m : MethodId) : Option (MethodId × ValueId) :=
  ((s.methods[m.index]?).bind (·.localNamed? name)).map (m, ·)

/-- What a file imports under a name: the local behind the export, with the module code it is in. -/
def importIn? (s : Scene) (name : String) (file : SourceFile) : Option (MethodId × ValueId) :=
  (file.imports.get? name).bind fun wanted =>
    (s.fileNamed? wanted.source).bind fun f =>
      (s.files[f.index]?).bind fun source =>
        (source.exports.get? wanted.name).map (source.moduleMethod, ·)

/-- What a name refers to in `m`, whose file is `file` and which the methods of `chain` are around:
the declaration of the first of these that has one, or else that of the module code, or else what is
imported. -/
def scoped? (s : Scene) (m : MethodId) (chain : List MethodId) (file : SourceFile) (name : String) :
    Option (MethodId × ValueId) :=
  (chain.findSome? (s.localIn? name)).or
    ((if file.moduleMethod = m then none else s.localIn? name file.moduleMethod).or
      (s.importIn? name file))

/-- The distinct methods around `m` from the inside out. -/
abbrev Around (s : Scene) (m : MethodId) (chain : List MethodId) : Prop := Trail s.outer? [] m chain

/-- The local that a name is bound to, with its owner. -/
def Resolution.target? : Resolution → Option (MethodId × ValueId)
  | .bound owner v => some (owner, v)
  | _ => none

section Refs

variable (hs : s.Refs s.Has)

include hs

theorem Refs.outer? (m o : MethodId) (ho : s.outer? m = some o) : s.Has .method o := by
  obtain ⟨decl, hdecl, ho⟩ := Option.bind_eq_some_iff.1 ho
  exact (hs.methods decl (Array.mem_of_getElem? hdecl)).outer o ho

theorem Refs.localIn? (hd : s.localIn? name m = some (o, d)) :
    s.Has .method o ∧ s.Has .value d := by
  obtain ⟨_, hd, ⟨⟩⟩ := Option.map_eq_some_iff.1 hd
  obtain ⟨decl, hdecl, hd⟩ := Option.bind_eq_some_iff.1 hd
  exact ⟨(Array.getElem?_eq_some_iff.1 hdecl).1,
    (hs.methods decl (Array.mem_of_getElem? hdecl)).localNamed? hd⟩

theorem Refs.scoped? {file : SourceFile} (hd : s.scoped? m chain file name = some (o, d)) :
    s.Has .method o ∧ s.Has .value d := by
  rcases Option.or_eq_some_iff.1 hd with hd | ⟨-, hd⟩
  · obtain ⟨b, -, hb⟩ := List.exists_of_findSome?_eq_some hd
    exact hs.localIn? hb
  rcases Option.or_eq_some_iff.1 hd with hd | ⟨-, hd⟩
  · split at hd
    · cases hd
    · exact hs.localIn? hd
  · obtain ⟨wanted, -, hd⟩ := Option.bind_eq_some_iff.1 hd
    obtain ⟨f, -, hd⟩ := Option.bind_eq_some_iff.1 hd
    obtain ⟨source, hsource, hd⟩ := Option.bind_eq_some_iff.1 hd
    obtain ⟨_, hd, ⟨⟩⟩ := Option.map_eq_some_iff.1 hd
    have hrefs := hs.files source (Array.mem_of_getElem? hsource)
    exact ⟨hrefs.moduleMethod, hrefs.exports d (NameMap.mem_values hd)⟩

theorem Refs.enclosing?_eq (h : Trail s.outer? seen m chain) {fuel : Nat} (hfuel : chain.length < fuel) :
    s.enclosing? name fuel seen (s.outer? m) = .ok (chain.findSome? (s.localIn? name)) := by
  induction fuel generalizing seen m chain with
  | zero => cases hfuel
  | succ fuel ih =>
    cases chain with
    | nil =>
      cases hm : s.outer? m with
      | none => rfl
      | some o => simp [enclosing?, Trail.nil_iff.1 h o hm]
    | cons o chain =>
      obtain ⟨hm, ho, h⟩ := Trail.cons_iff.1 h
      obtain ⟨decl, hmethod, -⟩ := answers_fetch (hs.outer? m o hm)
      have hdecl := Ref.fetch_eq_ok_iff.1 hmethod
      have hrest := ih h (Nat.lt_of_succ_lt_succ hfuel)
      rw [Scene.outer?, hdecl, Option.bind_some] at hrest
      rw [hm, enclosing?, if_neg ho, method, hmethod, List.findSome?_cons, Scene.localIn?, hdecl]
      simp only [Bind.bind, Except.bind, Option.bind_some]
      cases decl.localNamed? name with
      | some d => rfl
      | none => exact hrest

theorem Refs.fileOfMethod (hm : s.Has .method m) : Answers (s.fileOfMethod m) (· ∈ s.files) :=
  Answers.bind ((answers_fetch hm).bind fun decl hdecl => answers_fetch (hs.methods decl hdecl).owner)
    fun c hc => answers_fetch (hs.classes c hc).file

theorem Refs.imported (file : SourceFile) :
    Answers (s.imported file name) fun r => r.target? = s.importIn? name file := by
  unfold Scene.imported importIn?
  cases file.imports.get? name with
  | none => exact .pure rfl
  | some wanted =>
    dsimp only [Option.bind_some]
    cases hf : s.fileNamed? wanted.source with
    | none => exact .pure rfl
    | some f =>
      obtain ⟨source, hfile, -⟩ := answers_fetch (hs.fileNamed? hf)
      rw [Option.bind_some, Ref.fetch_eq_ok_iff.1 hfile, Option.bind_some]
      refine Answers.bind ⟨source, hfile, rfl⟩ ?_
      rintro _ rfl
      cases source.exports.get? wanted.name <;> exact .pure rfl

theorem Refs.resolve {file : SourceFile} {type : Ty} (hm : s.Has .method m)
    (hv : s.value v = .ok (.var name type)) (hfile : s.fileOfMethod m = .ok file)
    (h : s.Around m chain) :
    Answers (s.resolve m v) fun r => r.target? = s.scoped? m chain file name := by
  obtain ⟨decl, hmethod, hmem⟩ := answers_fetch hm
  have hlength : chain.length ≤ s.methods.size := h.length_le hs.outer?
  have hwalk : s.enclosing? name (s.methods.size + 1) [] decl.outer =
      .ok (chain.findSome? (s.localIn? name)) := by
    rw [← hs.enclosing?_eq h (Nat.lt_succ_of_le hlength), Scene.outer?,
      Ref.fetch_eq_ok_iff.1 hmethod, Option.bind_some]
  rw [Scene.resolve, hv, method, hmethod, Scene.scoped?]
  simp only [Bind.bind, Except.bind, Value.localName?, hwalk, hfile]
  cases chain.findSome? (s.localIn? name) with
  | some r => exact .pure rfl
  | none =>
    dsimp only [Option.none_or]
    by_cases heq : file.moduleMethod = m
    · rw [if_pos heq, if_pos heq]
      exact hs.imported file
    obtain ⟨_, hfile', hmem⟩ := hs.fileOfMethod hm
    cases hfile.symm.trans hfile'
    obtain ⟨module, hmodule, -⟩ := answers_fetch (hs.files file hmem).moduleMethod
    rw [if_neg heq, if_neg heq, method, hmodule, Scene.localIn?, Ref.fetch_eq_ok_iff.1 hmodule,
      Option.bind_some]
    dsimp only
    cases module.localNamed? name with
    | some d => exact .pure rfl
    | none => exact hs.imported file

end Refs

theorem WellFormed.isDeclaredIn (h : s.WellFormed) (hm : s.Has .method m) :
    Answers (s.isDeclaredIn m v) fun _ => True :=
  (h.method hm).bind fun _ _ => .pure trivial

/-- Whatever a name refers to exists. -/
def Resolution.Exists (s : Scene) (r : Resolution) : Prop :=
  ∀ owner v, r = .bound owner v → s.Has .method owner ∧ s.Has .value v

theorem WellFormed.resolve (h : s.WellFormed) (hm : s.Has .method m) (hv : s.Has .value v) :
    Answers (s.resolve m v) (·.Exists s) := by
  obtain ⟨a, ha, -⟩ := h.value hv
  cases a with
  | var name type =>
    obtain ⟨file, hfile, -⟩ := h.refs.fileOfMethod hm
    obtain ⟨chain, hchain⟩ := Trail.exists_trail h.refs.outer? m .nil nofun
    refine (h.refs.resolve hm ha hfile hchain).mono ?_
    rintro _ hr o d rfl
    exact h.refs.scoped? hr.symm
  | _ =>
    rw [Scene.resolve, ha]
    exact .pure nofun

/-- A local that `m` uses refers to the first declaration of its name in the distinct methods around
`m`, in the module code of the file if that is another method, or behind an import of the file, in
this order, and to nothing if there is none. -/
theorem Refs.resolveLocal_eq_scoped? {type : Ty} (hs : s.Refs s.Has) (hm : s.Has .method m)
    (hv : s.value v = .ok (.var name type)) : ∃ file, s.fileOfMethod m = .ok file ∧
      (∃ chain, s.Around m chain) ∧ ∀ chain, s.Around m chain → ∀ log, ∃ log',
        s.resolveLocal m v log = .ok (s.scoped? m chain file name) log' := by
  obtain ⟨file, hfile, -⟩ := hs.fileOfMethod hm
  refine ⟨file, hfile, Trail.exists_trail hs.outer? m .nil nofun, fun chain hchain log => ?_⟩
  obtain ⟨r, hr, htarget⟩ := hs.resolve hm hv hfile hchain
  rw [← htarget, resolveLocal, hr]
  cases r <;> exact ⟨_, rfl⟩

/-- Two functions that stand in each other, in a file that imports from itself. -/
def mutuallyNested : Scene where
  files := #[⟨⟨0⟩, "main.ets", ⟨0⟩, ⟨0⟩, .ofList [("y", ⟨1⟩)], .ofList [("x", ⟨"./main", "y"⟩)]⟩]
  classes := #[⟨⟨0⟩, "main", none, ⟨0⟩, none, false, ∅⟩]
  methods := #[none, some ⟨2⟩, some ⟨1⟩].mapIdx fun i outer =>
    ⟨⟨i⟩, "f", ⟨0⟩, ⟨"main", "f"⟩, true, false, [], .any, none, outer⟩
  values := #[.var "x" .any, .var "y" .any]

theorem Refs.resolveLocal_eq_scoped?_mutuallyNested :
    mutuallyNested.Refs mutuallyNested.Has ∧ mutuallyNested.Around ⟨1⟩ [⟨2⟩, ⟨1⟩] ∧
      ∀ log, ∃ log', mutuallyNested.resolveLocal ⟨1⟩ ⟨0⟩ log = .ok (some (⟨0⟩, ⟨1⟩)) log' := by
  have hs : mutuallyNested.Refs mutuallyNested.Has := by decide +kernel
  have hchain : mutuallyNested.Around ⟨1⟩ [⟨2⟩, ⟨1⟩] := by
    refine Trail.cons_iff.2 ⟨by decide, by decide, Trail.cons_iff.2 ⟨by decide, by decide, ?_⟩⟩
    rw [Trail.nil_iff]
    decide +kernel
  have hv : mutuallyNested.value ⟨0⟩ = .ok (.var "x" .any) := rfl
  obtain ⟨file, hfile, -, hall⟩ := Refs.resolveLocal_eq_scoped? hs (m := ⟨1⟩) (by decide) hv
  refine ⟨hs, hchain, fun log => ?_⟩
  have hscoped : mutuallyNested.scoped? ⟨1⟩ [⟨2⟩, ⟨1⟩] file "x" = some (⟨0⟩, ⟨1⟩) := by
    cases hfile
    decide +kernel
  exact hscoped ▸ hall _ hchain log

end PointsTo.Scene
