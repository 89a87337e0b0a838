import Mathlib.Data.List.Chain
import Mathlib.Logic.Relation
import PointsTo.Call.Hierarchy
import PointsTo.Proofs.Call.Reach
import PointsTo.Proofs.Scene.Trails
import PointsTo.Proofs.Scene.WellFormed

/-! The walk up from a class and the search down from it follow one relation, also where names are
repeated and where the hierarchy is cyclic. -/
namespace PointsTo.Scene

/-- Classes and methods know their own positions. -/
structure Numbered (s : Scene) : Prop where
  classes : ∀ (i : Nat) (c : ClassDecl), s.classes[i]? = some c → c.id = ⟨i⟩
  methods : ∀ (i : Nat) (m : MethodDecl), s.methods[i]? = some m → m.id = ⟨i⟩

theorem forall_entry_iff {α : Type} {xs : Array α} {q : Nat → α → Bool} :
    (∀ i x, xs[i]? = some x → q i x = true) ↔ ∀ i < xs.size, (xs[i]?).all (q i) := by
  constructor
  · intro h i _
    cases hx : xs[i]? with
    | none => rfl
    | some x => exact h i x hx
  · intro h i x hx
    have hall := h i (Array.getElem?_eq_some_iff.1 hx).1
    rwa [hx, Option.all_some] at hall

theorem numbered_iff {s : Scene} : s.Numbered ↔
    (∀ i < s.classes.size, (s.classes[i]?).all (·.id == ⟨i⟩)) ∧
      ∀ i < s.methods.size, (s.methods[i]?).all (·.id == ⟨i⟩) := by
  rw [← forall_entry_iff, ← forall_entry_iff]
  simp only [beq_iff_eq]
  exact ⟨fun h => ⟨h.classes, h.methods⟩, fun h => ⟨h.1, h.2⟩⟩

instance (s : Scene) : Decidable s.Numbered := decidable_of_iff' _ numbered_iff

/-- The superclass of a class, if both are declared. -/
def parent? (s : Scene) (c : ClassId) : Option ClassId :=
  (s.classes[c.index]?).bind fun decl => decl.superName.bind s.classNamed?

/-- One class is the superclass of another. -/
abbrev Extends (s : Scene) (c d : ClassId) : Prop := s.parent? c = some d

/-- The method of that name that a class itself declares. -/
def declared? (s : Scene) (name : String) (c : ClassId) : Option MethodId :=
  (s.classes[c.index]?).bind (·.methods.get? name)

/-- A class has a method if it declares it, or else if its superclass has it. -/
inductive Inherits (s : Scene) (name : String) : ClassId → MethodId → Prop where
  | own {c : ClassId} {m : MethodId} : s.declared? name c = some m → Inherits s name c m
  | above {c d : ClassId} {m : MethodId} : s.declared? name c = none → s.Extends c d →
      Inherits s name d m → Inherits s name c m

variable {s : Scene} {name : String} {c d : ClassId} {m : MethodId}

theorem Inherits.unique {m' : MethodId} (h : s.Inherits name c m) (h' : s.Inherits name c m') :
    m = m' := by
  induction h with
  | own hm =>
    cases h' with
    | own hm' => exact Option.some.inj (hm.symm.trans hm')
    | above hno => exact absurd (hm.symm.trans hno) nofun
  | above hno hd _ ih =>
    cases h' with
    | own hm' => exact absurd (hno.symm.trans hm') nofun
    | above _ hd' hm' =>
      cases Option.some.inj (hd.symm.trans hd')
      exact ih hm'

section Lookups

theorem Extends.has (h : s.Extends c d) : s.Has .classDecl c := by
  obtain ⟨decl, hdecl, -⟩ := Option.bind_eq_some_iff.1 h
  exact (Array.getElem?_eq_some_iff.1 hdecl).1

theorem exists_classDecl (hc : s.Has .classDecl c) : ∃ decl, s.classes[c.index]? = some decl :=
  ⟨_, Array.getElem?_eq_getElem hc⟩

theorem superClass?_eq (hc : s.Has .classDecl c) : s.superClass? c = .ok (s.parent? c) := by
  obtain ⟨decl, hdecl⟩ := exists_classDecl hc
  rw [superClass?, classDecl, Ref.fetch_eq_ok_iff.2 hdecl, parent?, hdecl]
  rfl

theorem declaredIn?_eq {l : List ClassId} (hl : ∀ d ∈ l, s.Has .classDecl d) :
    s.declaredIn? name l = .ok (l.findSome? (s.declared? name)) := by
  induction l with
  | nil => rfl
  | cons d l ih =>
    obtain ⟨decl, hdecl⟩ := exists_classDecl (hl d (.head _))
    have hrest := ih fun e he => hl e (.tail _ he)
    rw [declaredIn?, classDecl, Ref.fetch_eq_ok_iff.2 hdecl, List.findSome?_cons, declared?, hdecl,
      Option.bind_some, hrest]
    cases hget : decl.methods.get? name <;>
      simp [hget, Bind.bind, Except.bind, Pure.pure, Except.pure]

theorem overrides_eq {l : List ClassId} (hl : ∀ d ∈ l, s.Has .classDecl d) :
    s.overrides name l = .ok (l.filterMap (s.declared? name)) := by
  induction l with
  | nil => rfl
  | cons d l ih =>
    obtain ⟨decl, hdecl⟩ := exists_classDecl (hl d (.head _))
    have hrest := ih fun e he => hl e (.tail _ he)
    rw [overrides, classDecl, Ref.fetch_eq_ok_iff.2 hdecl, List.filterMap_cons, declared?, hdecl,
      Option.bind_some, hrest]
    cases hget : decl.methods.get? name <;>
      simp [hget, Bind.bind, Except.bind, Pure.pure, Except.pure]

end Lookups

namespace Numbered

variable (hs : s.Numbered)

include hs

theorem has_of_classNamed? (hc : s.classNamed? name = some c) : s.Has .classDecl c := by
  obtain ⟨decl, hfind, rfl⟩ := Option.map_eq_some_iff.1 hc
  have hmem : decl ∈ s.classes := by simpa using List.mem_of_find?_eq_some hfind
  obtain ⟨i, hi⟩ := Array.mem_iff_getElem?.1 hmem
  rw [hs.classes i decl hi]
  exact (Array.getElem?_eq_some_iff.1 hi).1

theorem has_parent (h : s.Extends c d) : s.Has .classDecl d := by
  obtain ⟨decl, -, hd⟩ := Option.bind_eq_some_iff.1 h
  obtain ⟨name, -, hname⟩ := Option.bind_eq_some_iff.1 hd
  exact hs.has_of_classNamed? hname

/-- The climb from a class follows the trail of its superclasses. -/
theorem climb {fuel : Nat} {chain rest : List ClassId} (h : Trail s.parent? chain c rest)
    (hc : s.Has .classDecl c) (hfuel : rest.length < fuel) :
    Answers (s.climb fuel chain c) (·.chain = chain ++ rest) := by
  induction fuel generalizing chain c rest with
  | zero => cases hfuel
  | succ fuel ih =>
    rw [Scene.climb, superClass?_eq hc]
    cases rest with
    | nil =>
      rw [List.append_nil]
      cases hparent : s.parent? c with
      | none => exact .pure rfl
      | some parent =>
        refine Answers.bind ⟨_, rfl, rfl⟩ ?_
        rintro _ rfl
        dsimp only
        rw [if_pos (Trail.nil_iff.1 h parent hparent)]
        exact (answers_fetch (hs.has_parent hparent)).bind fun _ _ => .pure rfl
    | cons parent rest =>
      obtain ⟨hparent, hnew, h⟩ := Trail.cons_iff.1 h
      have hrest : Trail s.parent? (chain ++ [parent]) parent rest := h.congr (by simp [or_comm])
      refine Answers.bind ⟨_, rfl, rfl⟩ ?_
      rintro _ rfl
      rw [hparent]
      dsimp only
      rw [if_neg hnew]
      refine (ih hrest (hs.has_parent hparent) (Nat.lt_of_succ_lt_succ hfuel)).mono fun a ha => ?_
      rw [ha, List.append_assoc, List.singleton_append]

/-- The ancestors of a class, which start with the class itself and leave out none. -/
theorem ancestry (hc : s.Has .classDecl c) :
    Answers (s.ancestry c) fun a => (∃ rest, a.chain = c :: rest) ∧ a.chain.IsChain s.Extends ∧
      (∀ d ∈ a.chain, s.Has .classDecl d) ∧ ∀ d ∈ a.chain, ∀ e, s.Extends d e → e ∈ a.chain := by
  have hparent := fun d e => hs.has_parent (c := d) (d := e)
  have hhas : ∀ d ∈ [c], s.Has .classDecl d := by simpa using hc
  obtain ⟨rest, h⟩ := Trail.exists_trail hparent c (List.nodup_singleton c) hhas
  refine (hs.climb h hc (Nat.lt_succ_of_le (h.length_le hparent))).mono fun a ha => ?_
  rw [ha, List.singleton_append]
  exact ⟨⟨rest, rfl⟩, h.links, List.forall_mem_cons.2 ⟨hc, h.index_lt hparent⟩,
    fun d hd e he => by simpa using h.whole d hd e he⟩

end Numbered

/-- The first method that the classes of a chain declare is the one that its first class has. -/
theorem inherits_of_findSome? {rest : List ClassId} (hlinks : (c :: rest).IsChain s.Extends)
    (h : (c :: rest).findSome? (s.declared? name) = some m) : s.Inherits name c m := by
  induction rest generalizing c with
  | nil =>
    cases hc : s.declared? name c with
    | none => simp [hc] at h
    | some own =>
      rw [List.findSome?_cons, hc] at h
      cases h
      exact .own hc
  | cons d rest ih =>
    obtain ⟨hlink, hlinks⟩ := List.isChain_cons_cons.1 hlinks
    rw [List.findSome?_cons] at h
    cases hc : s.declared? name c with
    | none =>
      rw [hc] at h
      exact .above hc hlink (ih hlinks h)
    | some own =>
      rw [hc] at h
      cases h
      exact .own hc

/-- Classes that declare no such method and leave out none of their superclasses do not have one. -/
theorem not_inherits_of_closed {P : ClassId → Prop} (hclosed : ∀ d e, P d → s.Extends d e → P e)
    (hno : ∀ d, P d → s.declared? name d = none) (hc : P c) : ¬ s.Inherits name c m := by
  intro h
  induction h with
  | own hm => exact absurd (hm.symm.trans (hno _ hc)) nofun
  | above _ hd _ ih => exact ih (hclosed _ _ hc hd)

namespace Numbered

variable (hs : s.Numbered)

include hs

/-- The method that is found for a class is the one that it has. -/
theorem inherited? (name : String) (hc : s.Has .classDecl c) :
    Answers (s.inherited? c name) fun m? => ∀ m, m? = some m ↔ s.Inherits name c m := by
  refine (hs.ancestry hc).bind ?_
  rintro a ⟨⟨rest, hrest⟩, hlinks, hhas, hclosed⟩
  rw [declaredIn?_eq hhas]
  refine ⟨_, rfl, fun m => ?_⟩
  have hfound {m'} (h : a.chain.findSome? (s.declared? name) = some m') : s.Inherits name c m' := by
    rw [hrest] at h hlinks
    exact inherits_of_findSome? hlinks h
  refine ⟨hfound, fun h => ?_⟩
  cases hfind : a.chain.findSome? (s.declared? name) with
  | some m' => rw [(hfound hfind).unique h]
  | none =>
    have hno := List.findSome?_eq_none_iff.1 hfind
    refine absurd h (not_inherits_of_closed (P := (· ∈ a.chain)) (fun d e hd => hclosed d hd e)
      hno ?_)
    exact hrest ▸ .head _

theorem inherited?_eq_iff (hc : s.Has .classDecl c) :
    s.inherited? c name = .ok (some m) ↔ s.Inherits name c m := by
  obtain ⟨m?, hm?, hiff⟩ := hs.inherited? name hc
  rw [hm?, ← hiff m]
  exact ⟨fun h => Except.ok.inj h, fun h => congrArg _ h⟩

theorem mem_children : d ∈ s.children c ↔ s.Extends d c := by
  simp only [children, List.mem_map, List.mem_filter, Array.mem_toList_iff, beq_iff_eq]
  constructor
  · rintro ⟨decl, ⟨hmem, hsuper⟩, rfl⟩
    obtain ⟨i, hi⟩ := Array.mem_iff_getElem?.1 hmem
    rw [hs.classes i decl hi, Extends, parent?, hi]
    exact hsuper
  · intro h
    obtain ⟨decl, hdecl, hsuper⟩ := Option.bind_eq_some_iff.1 h
    exact ⟨decl, ⟨Array.mem_of_getElem? hdecl, hsuper⟩, hs.classes _ _ hdecl⟩

/-- The subclasses of a class are the classes from which superclasses lead to it. -/
theorem mem_subclasses : d ∈ s.subclasses c ↔ Relation.TransGen s.Extends d c := by
  have hreach : d ∈ Search.reach s.children (2 * s.classes.size + 1) (s.children c) ↔
      ∃ a ∈ s.children c, Search.Leads s.children a d := by
    -- what is left to be found are the classes whose superclass was not seen
    refine Search.mem_reach_iff (fun seen => (s.classes.toList.filter fun e =>
      (e.superName.bind s.classNamed?).all (· ∉ seen)).length) ?_ ?_
    · intro a seen ha
      rw [children, List.length_map]
      exact Search.length_filter_key_le _ _ ha
    · have hle (q : ClassDecl → Bool) := List.length_filter_le q s.classes.toList
      rw [Array.length_toList] at hle
      have hstart := hle fun e => e.superName.bind s.classNamed? == some c
      have hweight := hle fun e => (e.superName.bind s.classNamed?).all (· ∉ ([] : List ClassId))
      rw [children, List.length_map]
      omega
  have hleads (a : ClassId) :
      Search.Leads s.children a d ↔ Relation.ReflTransGen s.Extends d a := by
    rw [← Relation.reflTransGen_swap]
    simp only [Search.Leads, hs.mem_children]
  rw [subclasses, hreach, Relation.TransGen.tail'_iff]
  simp only [hleads, hs.mem_children, and_comm]

end Numbered

namespace WellFormed

variable (h : s.WellFormed)

include h

theorem numbered : s.Numbered := ⟨h.classes, h.methods⟩

theorem ancestry (hc : s.Has .classDecl c) :
    Answers (s.ancestry c) fun a => ∀ d ∈ a.chain, s.Has .classDecl d :=
  (h.numbered.ancestry hc).mono fun _ ha => ha.2.2.1

theorem declared? (hm : s.declared? name c = some m) : s.Has .method m := by
  obtain ⟨decl, hdecl, hm⟩ := Option.bind_eq_some_iff.1 hm
  exact (h.refs.classes decl (Array.mem_of_getElem? hdecl)).methods m (NameMap.mem_values hm)

theorem declaredIn? {chain : List ClassId} (hchain : ∀ d ∈ chain, s.Has .classDecl d) :
    Answers (s.declaredIn? name chain) fun m? => ∀ m ∈ m?, s.Has .method m := by
  refine ⟨_, declaredIn?_eq hchain, fun m hm => ?_⟩
  obtain ⟨d, -, hd⟩ := List.exists_of_findSome?_eq_some hm
  exact h.declared? hd

theorem overrides {classes : List ClassId} (hclasses : ∀ d ∈ classes, s.Has .classDecl d) :
    Answers (s.overrides name classes) fun ms => ∀ m ∈ ms, s.Has .method m := by
  refine ⟨_, overrides_eq hclasses, fun m hm => ?_⟩
  obtain ⟨d, -, hd⟩ := List.mem_filterMap.1 hm
  exact h.declared? hd

theorem subclasses (hd : d ∈ s.subclasses c) : s.Has .classDecl d := by
  obtain ⟨_, hlink, -⟩ := Relation.TransGen.head'_iff.1 (h.numbered.mem_subclasses.1 hd)
  exact hlink.has

end WellFormed

end PointsTo.Scene
