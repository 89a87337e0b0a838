import PointsTo.Proofs.Call.Sites

/-! Static, dynamic and resolved call sites share one sequence of positions. Whatever is asked of the
table in whatever order, each dynamic site has one resolution for each callee that was asked for. -/
namespace PointsTo

namespace SiteTable

variable {t : SiteTable} {i j : SiteId} {m : MethodId}

/-- The table of resolutions has every static site that resolves a dynamic one. -/
structure Registered (t : SiteTable) : Prop extends t.Valid where
  origin : ∀ j site d, t.static? j = some site → site.origin = some d →
    t.resolutions[(d, site.callee)]? = some j

theorem registered_empty : Registered {} :=
  { valid_empty with origin := by simp [static?, get?] }

/-- A new site keeps the table in order if its resolution is entered with it. -/
theorem Registered.push (h : t.Registered) {site : CallSite}
    {r : Std.TreeMap (SiteId × MethodId) SiteId} (hvalid : Valid ⟨t.sites.push site, r⟩)
    (hr : ∀ (i : SiteId) (m : MethodId) j, t.resolutions[(i, m)]? = some j → r[(i, m)]? = some j)
    (hsite : ∀ a d, site = .static a → a.origin = some d → r[(d, a.callee)]? = some t.nextId) :
    Registered ⟨t.sites.push site, r⟩ := by
  refine { hvalid with origin := fun j a d ha hd => ?_ }
  rcases get?_push.1 (static?_eq_some.1 ha) with ha | ⟨rfl, rfl⟩
  · exact hr _ _ j (h.origin j a d (static?_eq_some.2 ha) hd)
  · exact hsite a d rfl hd

theorem resolutions_resolve (hm : (t.resolve i m).1 = some j) :
    (t.resolve i m).2.resolutions[(i, m)]? = some j := by
  unfold resolve at hm ⊢
  cases hj : t.resolutions[(i, m)]? with
  | some k =>
    simp only [hj] at hm ⊢
    exact hm
  | none =>
    cases hs : t.dynamic? i with
    | none => simp [hj, hs] at hm
    | some site =>
      simp only [hj, hs] at hm ⊢
      rw [getElem?_insert, if_pos rfl]
      exact hm

/-- What was resolved is not resolved again. -/
theorem resolve_eq_of_resolutions (h : t.resolutions[(i, m)]? = some j) :
    t.resolve i m = (some j, t) := by
  simp [resolve, h]

theorem Valid.resolve_eq_none_iff (h : t.Valid) :
    (t.resolve i m).1 = none ↔ t.dynamic? i = none := by
  constructor
  · intro hnone
    cases hs : t.dynamic? i with
    | none => rfl
    | some site =>
      obtain ⟨j, hj⟩ := exists_resolve (m := m) hs
      cases hnone.symm.trans hj
  · intro hs
    cases hj : (t.resolve i m).1 with
    | none => rfl
    | some j =>
      obtain ⟨site, hsite, -⟩ := static?_of_resolve h hj
      cases hs.symm.trans hsite

/-- A site resolves one dynamic site to one callee. -/
theorem Valid.resolutions_inj (h : t.Valid) {i' : SiteId} {m' : MethodId}
    (hj : t.resolutions[(i, m)]? = some j) (hj' : t.resolutions[(i', m')]? = some j) :
    i = i' ∧ m = m' := by
  obtain ⟨site, hsite, hstatic⟩ := h.resolutions i m j hj
  obtain ⟨site', hsite', hstatic'⟩ := h.resolutions i' m' j hj'
  have heq : site.resolved j m = site'.resolved j m' := Option.some.inj (hstatic.symm.trans hstatic')
  have horigin : site.id = site'.id := Option.some.inj (congrArg StaticSite.origin heq)
  exact ⟨(h.dynamic_id hsite).symm.trans (horigin.trans (h.dynamic_id hsite')),
    congrArg StaticSite.callee heq⟩

/-- The resolutions of a site are listed as the table of resolutions has them. -/
theorem mem_resolvedFrom :
    j ∈ t.resolvedFrom i ↔ ∃ m : MethodId, t.resolutions[(i, m)]? = some j := by
  simp only [resolvedFrom, List.mem_mergeSort, List.mem_map, List.mem_filter, Prod.exists,
    Std.TreeMap.mem_toList_iff_getElem?_eq_some, beq_iff_eq]
  constructor
  · rintro ⟨k, m, _, ⟨hj, rfl⟩, rfl⟩
    exact ⟨m, hj⟩
  · rintro ⟨m, hj⟩
    exact ⟨i, m, j, ⟨hj, rfl⟩, rfl⟩

/-- The table of resolutions agrees with what the sites say of themselves. -/
theorem Registered.mem_resolvedFrom_iff_origin (h : t.Registered) :
    j ∈ t.resolvedFrom i ↔ ∃ site, t.static? j = some site ∧ site.origin = some i := by
  rw [mem_resolvedFrom]
  constructor
  · rintro ⟨m, hm⟩
    obtain ⟨site, hsite, hstatic⟩ := h.resolutions i m j hm
    exact ⟨_, hstatic, congrArg some (h.dynamic_id hsite)⟩
  · rintro ⟨site, hsite, horigin⟩
    exact ⟨site.callee, h.origin j site i hsite horigin⟩

/-- Resolutions are listed in the order in which they were made, each of them once. -/
theorem Valid.pairwise_resolvedFrom (h : t.Valid) (i : SiteId) :
    (t.resolvedFrom i).Pairwise fun j k => j.index < k.index := by
  have hsorted : (t.resolvedFrom i).Pairwise fun j k => j.index ≤ k.index := by
    refine (List.pairwise_mergeSort ?_ ?_ _).imp of_decide_eq_true
    · intro a b c hab hbc
      exact decide_eq_true (Nat.le_trans (of_decide_eq_true hab) (of_decide_eq_true hbc))
    · intro a b
      simpa using Nat.le_total a.index b.index
  have hnodup : (t.resolvedFrom i).Nodup := by
    refine (List.mergeSort_perm _ _).nodup_iff.2 (List.pairwise_map.2 ?_)
    refine (t.resolutions.distinct_keys_toList.filter _).imp_of_mem fun {a b} ha hb hne heq => ?_
    rw [List.mem_filter, Std.TreeMap.mem_toList_iff_getElem?_eq_some] at ha hb
    obtain ⟨hi, hm⟩ := h.resolutions_inj ha.1 (heq ▸ hb.1)
    exact hne (Std.LawfulEqOrd.compare_eq_iff_eq.2 (Prod.ext hi hm))
  exact (hsorted.and hnodup).imp fun h => Nat.lt_of_le_of_ne h.1 fun heq => h.2 (Ref.index_inj.1 heq)

end SiteTable

/-- An operation on the call sites. -/
inductive SiteChange where
  | addStatic (stmt : Option StmtId) (signature : Signature) (args : Option (List CallArg))
    (target receiver : Option ValueId) (caller callee : MethodId)
  | addDynamic (stmt : Option StmtId) (signature : Signature) (args : Option (List CallArg))
    (target : Option ValueId) (receiver : Option CallArg) (caller : MethodId)
    (prototype : Option MethodId)
  | resolve (i : SiteId) (callee : MethodId)

namespace SiteChange

open SiteTable (Registered)

variable {t : SiteTable} {i j : SiteId} {m : MethodId}

/-- The table after an operation. -/
def apply (t : SiteTable) : SiteChange → SiteTable
  | .addStatic stmt signature args target receiver caller callee =>
    (t.addStatic stmt signature args target receiver caller callee).2
  | .addDynamic stmt signature args target receiver caller prototype =>
    (t.addDynamic stmt signature args target receiver caller prototype).2
  | .resolve i callee => (t.resolve i callee).2

/-- The table after some operations. -/
def run (t : SiteTable) (ops : List SiteChange) : SiteTable := ops.foldl apply t

theorem grows_apply (t : SiteTable) (op : SiteChange) : t.Grows (op.apply t) := by
  cases op with
  | addStatic => exact SiteTable.addStatic_grows
  | addDynamic => exact SiteTable.addDynamic_grows
  | resolve => exact SiteTable.resolve_grows

/-- The resolutions after an operation are those before it and the one that it asks for. -/
theorem resolutions_apply (t : SiteTable) (op : SiteChange) :
    (op.apply t).resolutions[(i, m)]? = some j ↔
      t.resolutions[(i, m)]? = some j ∨ op = .resolve i m ∧ (t.resolve i m).1 = some j := by
  cases op with
  | addStatic => simp [apply, SiteTable.addStatic]
  | addDynamic => simp [apply, SiteTable.addDynamic]
  | resolve k f =>
    simp only [apply, SiteTable.resolve]
    cases hr : t.resolutions[(k, f)]? with
    | some old => grind
    | none =>
      cases hs : t.dynamic? k with
      | none => grind
      | some site =>
        rw [getElem?_insert]
        grind

theorem registered_apply (h : t.Registered) (op : SiteChange) : (op.apply t).Registered := by
  have hvalid := (grows_apply t op).valid h.toValid
  cases op with
  | addStatic stmt signature args target receiver caller callee =>
    refine h.push hvalid (fun _ _ _ hj => hj) ?_
    rintro a d ⟨⟩ ⟨⟩
  | addDynamic =>
    refine h.push hvalid (fun _ _ _ hj => hj) ?_
    rintro a d ⟨⟩
  | resolve i m =>
    have hkeep := fun k f j hj => (resolutions_apply (i := k) (m := f) (j := j) t (.resolve i m)).2
      (.inl hj)
    simp only [apply, SiteTable.resolve] at hvalid hkeep ⊢
    cases hr : t.resolutions[(i, m)]? with
    | some j => simpa only [hr] using h
    | none =>
      cases hs : t.dynamic? i with
      | none => simpa only [hr, hs] using h
      | some site =>
        simp only [hr, hs] at hvalid hkeep ⊢
        refine h.push hvalid hkeep ?_
        rintro a d ⟨⟩ hd
        obtain rfl : site.id = d := Option.some.inj hd
        rw [h.dynamic_id hs]
        simp [DynamicSite.resolved]

theorem registered_run (h : t.Registered) (ops : List SiteChange) : (run t ops).Registered := by
  induction ops generalizing t with
  | nil => exact h
  | cons op ops ih => exact ih (registered_apply h op)

theorem grows_run (t : SiteTable) (ops : List SiteChange) : t.Grows (run t ops) := by
  induction ops generalizing t with
  | nil => exact Std.Refl.refl t
  | cons op ops ih => exact Trans.trans (grows_apply t op) (ih (op.apply t))

theorem resolutions_run (h : t.resolutions[(i, m)]? = some j) (ops : List SiteChange) :
    (run t ops).resolutions[(i, m)]? = some j := by
  induction ops generalizing t with
  | nil => exact h
  | cons op ops ih => exact ih ((resolutions_apply t op).2 (.inl h))

/-- The operation that made a resolution is among those that led to the table. -/
theorem resolutions_run_iff (t : SiteTable) (ops : List SiteChange) :
    (run t ops).resolutions[(i, m)]? = some j ↔ t.resolutions[(i, m)]? = some j ∨
      ∃ before after, ops = before ++ .resolve i m :: after ∧
        ((run t before).resolve i m).1 = some j := by
  constructor
  · intro h
    induction ops generalizing t with
    | nil => exact .inl h
    | cons op ops ih =>
      rcases ih (op.apply t) h with h | ⟨before, after, rfl, hj⟩
      · rcases (resolutions_apply t op).1 h with h | ⟨rfl, hj⟩
        · exact .inl h
        · exact .inr ⟨[], ops, rfl, hj⟩
      · exact .inr ⟨op :: before, after, rfl, hj⟩
  · rintro (h | ⟨before, after, rfl, hj⟩)
    · exact resolutions_run h ops
    · rw [run, List.foldl_append, List.foldl_cons]
      exact resolutions_run (SiteTable.resolutions_resolve hj) after

/-- After any operations on a new table, a site is at the position that it bears and stays there as it
is. Exactly the dynamic sites can be resolved: to the same site whenever the callee is the same, and
to another one for any other site or callee. The resolution is the dynamic site with the callee
filled in. The resolutions of a site are listed in ascending order; they are the sites that have it
as their origin, and only what was asked for is among them. -/
theorem registers_resolutions (ops : List SiteChange) :
    let t := run {} ops
    (∀ i site, t.get? i = some site → site.id = i ∧ ∀ more, (run t more).get? i = some site) ∧
      (∀ d f, (t.resolve d f).1 = none ↔ t.dynamic? d = none) ∧
      (∀ d f i more, (t.resolve d f).1 = some i → ∀ d' f',
        ((run (t.resolve d f).2 more).resolve d' f').1 = some i ↔ d' = d ∧ f' = f) ∧
      (∀ d f i, (t.resolve d f).1 = some i → ∃ site clone, t.dynamic? d = some site ∧
        (t.resolve d f).2.static? i = some clone ∧ clone.id = i ∧ clone.stmt = site.stmt ∧
        clone.signature = site.signature ∧ clone.args = site.args ∧ clone.target = site.target ∧
        clone.caller = site.caller ∧ clone.callee = f ∧ clone.origin = some d ∧
        ∀ v, clone.receiver = some v ↔ site.receiver = some (.value v)) ∧
      ∀ d, (t.resolvedFrom d).Pairwise (fun i j => i.index < j.index) ∧
        (∀ i, i ∈ t.resolvedFrom d ↔ ∃ site, t.static? i = some site ∧ site.origin = some d) ∧
        ∀ i, i ∈ t.resolvedFrom d ↔ ∃ f before after, ops = before ++ .resolve d f :: after ∧
          ((run {} before).resolve d f).1 = some i := by
  intro t
  have ht : t.Registered := registered_run SiteTable.registered_empty ops
  refine ⟨fun i site hi => ⟨ht.id i site hi, fun more => (grows_run t more).keeps i site hi⟩,
    fun d f => ht.resolve_eq_none_iff, fun d f i more hi d' f' => ?_, fun d f i hi => ?_,
    fun d => ⟨ht.pairwise_resolvedFrom d, fun i => ht.mem_resolvedFrom_iff_origin, fun i => ?_⟩⟩
  · have hnext := registered_apply ht (.resolve d f)
    have hlater := resolutions_run (SiteTable.resolutions_resolve hi) more
    constructor
    · intro hi'
      -- Both resolutions are in the table after the second request.
      have hboth := registered_apply (registered_run hnext more) (.resolve d' f')
      exact hboth.resolutions_inj (SiteTable.resolutions_resolve hi')
        ((resolutions_apply _ _).2 (.inl hlater))
    · rintro ⟨rfl, rfl⟩
      rw [SiteTable.resolve_eq_of_resolutions hlater]
  · obtain ⟨site, hsite, hstatic⟩ := SiteTable.static?_of_resolve ht.toValid hi
    refine ⟨site, _, hsite, hstatic, rfl, rfl, rfl, rfl, rfl, rfl, rfl, ?_, fun v => ?_⟩
    · exact congrArg some (ht.dynamic_id hsite)
    · simp only [DynamicSite.resolved]
      split <;> simp_all
  · rw [SiteTable.mem_resolvedFrom]
    refine exists_congr fun f => ?_
    rw [resolutions_run_iff]
    simp

end SiteChange

end PointsTo
