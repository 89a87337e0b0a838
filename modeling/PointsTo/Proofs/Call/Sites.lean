import PointsTo.Proofs.Ensures
import PointsTo.Proofs.Lookup
import PointsTo.Summary.Survey

/-! Call sites are only ever added. -/
namespace PointsTo

namespace SiteTable

/-- Every site bears its own position, and the resolutions are the sites that they should be. -/
structure Valid (t : SiteTable) : Prop where
  id : ∀ i site, t.get? i = some site → site.id = i
  resolutions : ∀ i m j, t.resolutions[(i, m)]? = some j →
    ∃ site, t.dynamic? i = some site ∧ t.static? j = some (site.resolved j m)

/-- `t'` is `t` with more sites. -/
structure Grows (t t' : SiteTable) : Prop where
  keeps : ∀ i site, t.get? i = some site → t'.get? i = some site
  valid : t.Valid → t'.Valid

theorem valid_empty : Valid {} := ⟨by simp [get?], by simp⟩

section

variable {t t' : SiteTable} {i j : SiteId} {site : DynamicSite}
  {r : Std.TreeMap (SiteId × MethodId) SiteId} {stmt : Option StmtId} {signature : Signature}
  {args : Option (List CallArg)} {target receiver : Option ValueId} {caller callee m : MethodId}
  {prototype : Option MethodId}

theorem static?_eq_some {site : StaticSite} :
    t.static? i = some site ↔ t.get? i = some (.static site) := by
  unfold static?
  split <;> simp_all

theorem dynamic?_eq_some : t.dynamic? i = some site ↔ t.get? i = some (.dynamic site) := by
  unfold dynamic?
  split <;> simp_all

theorem Valid.dynamic_id (h : t.Valid) (hs : t.dynamic? i = some site) : site.id = i :=
  h.id i _ (dynamic?_eq_some.1 hs)

theorem Valid.static_id (h : t.Valid) {site : StaticSite} (hs : t.static? i = some site) :
    site.id = i :=
  h.id i _ (static?_eq_some.1 hs)

instance : Std.Refl Grows := ⟨fun _ => ⟨fun _ _ h => h, id⟩⟩

instance : Trans Grows Grows Grows :=
  ⟨fun h h' => ⟨fun i site hs => h'.keeps i site (h.keeps i site hs), h'.valid ∘ h.valid⟩⟩

theorem Grows.static? (h : t.Grows t') {site : StaticSite} (hs : t.static? i = some site) :
    t'.static? i = some site :=
  static?_eq_some.2 (h.keeps i _ (static?_eq_some.1 hs))

theorem Grows.dynamic? (h : t.Grows t') (hs : t.dynamic? i = some site) :
    t'.dynamic? i = some site :=
  dynamic?_eq_some.2 (h.keeps i _ (dynamic?_eq_some.1 hs))

theorem lt_size_of_get? {site : CallSite} (h : t.get? i = some site) : i.index < t.sites.size :=
  (Array.getElem?_eq_some_iff.1 h).1

theorem lt_size_of_dynamic? (h : t.dynamic? i = some site) : i.index < t.sites.size :=
  lt_size_of_get? (dynamic?_eq_some.1 h)

theorem Grows.dynamic?_of_lt (h : t.Grows t') (hi : i.index < t.sites.size)
    (hs : t'.dynamic? i = some site) : t.dynamic? i = some site := by
  have hget : t.get? i = some t.sites[i.index] := Array.getElem?_eq_getElem hi
  rw [dynamic?_eq_some, h.keeps i _ hget] at hs
  rw [dynamic?_eq_some, hget, hs]

theorem Valid.static_lt_size (h : t.Valid) {site : StaticSite} (hs : t.static? i = some site) :
    site.id.index < t.sites.size := by
  have hget := static?_eq_some.1 hs
  rw [show site.id = i from h.id i _ hget]
  exact lt_size_of_get? hget

theorem Grows.size_le (h : t.Grows t') : t.sites.size ≤ t'.sites.size := by
  refine Nat.le_of_not_lt fun hlt => ?_
  have hlast := h.keeps ⟨t'.sites.size⟩ _ (Array.getElem?_eq_getElem hlt)
  exact Nat.lt_irrefl _ (lt_size_of_get? hlast)

theorem get?_push {site x : CallSite} : get? ⟨t.sites.push site, r⟩ i = some x ↔
      t.get? i = some x ∨ (i = t.nextId ∧ x = site) := by
  simp only [get?, nextId, Array.getElem?_push]
  split
  · next h =>
    have hi : i = ⟨t.sites.size⟩ := Ref.index_inj.1 h
    simp [hi, @eq_comm _ x]
  · next h =>
    have hi : i ≠ ⟨t.sites.size⟩ := fun hi => h (congrArg Ref.index hi)
    simp [hi]

theorem grows_push {site : CallSite} (hid : site.id = t.nextId)
    (hr : ∀ i m j, r[(i, m)]? = some j → t.resolutions[(i, m)]? = some j ∨
      ∃ d, t.dynamic? i = some d ∧ j = t.nextId ∧ site = .static (d.resolved j m)) :
    t.Grows ⟨t.sites.push site, r⟩ := by
  have hkeep : ∀ i x, t.get? i = some x → get? ⟨t.sites.push site, r⟩ i = some x :=
    fun i x h => get?_push.2 (.inl h)
  refine ⟨hkeep, fun h => ⟨?_, ?_⟩⟩
  · intro i x hx
    rcases get?_push.1 hx with hx | ⟨rfl, rfl⟩
    · exact h.id i x hx
    · exact hid
  · intro i m j hj
    rcases hr i m j hj with hj | ⟨d, hd, rfl, rfl⟩
    · obtain ⟨d, hd, hs⟩ := h.resolutions i m j hj
      exact ⟨d, dynamic?_eq_some.2 (hkeep i _ (dynamic?_eq_some.1 hd)),
        static?_eq_some.2 (hkeep j _ (static?_eq_some.1 hs))⟩
    · exact ⟨d, dynamic?_eq_some.2 (hkeep i _ (dynamic?_eq_some.1 hd)),
        static?_eq_some.2 (get?_push.2 (.inr ⟨rfl, rfl⟩))⟩

theorem addStatic_grows :
    t.Grows (t.addStatic stmt signature args target receiver caller callee).2 :=
  grows_push rfl fun _ _ _ h => .inl h

theorem addDynamic_grows {receiver : Option CallArg} :
    t.Grows (t.addDynamic stmt signature args target receiver caller prototype).2 :=
  grows_push rfl fun _ _ _ h => .inl h

theorem static?_addStatic :
    (t.addStatic stmt signature args target receiver caller callee).2.static?
        (t.addStatic stmt signature args target receiver caller callee).1 =
      some { id := t.nextId, stmt, signature, args, target, receiver, caller, callee
             origin := none } :=
  static?_eq_some.2 (get?_push.2 (.inr ⟨rfl, rfl⟩))

theorem dynamic?_addDynamic {receiver : Option CallArg} :
    (t.addDynamic stmt signature args target receiver caller prototype).2.dynamic?
        (t.addDynamic stmt signature args target receiver caller prototype).1 =
      some { id := t.nextId, stmt, signature, args, target, receiver, caller, prototype } :=
  dynamic?_eq_some.2 (get?_push.2 (.inr ⟨rfl, rfl⟩))

theorem resolve_grows : t.Grows (t.resolve i m).2 := by
  unfold resolve
  split
  · exact Std.Refl.refl t
  · split
    · exact Std.Refl.refl t
    · next site hs =>
      refine grows_push rfl fun k c j hj => ?_
      rw [getElem?_insert] at hj
      split at hj
      · next heq =>
        cases heq
        exact .inr ⟨site, hs, (Option.some.inj hj).symm, by rw [Option.some.inj hj]⟩
      · exact .inl hj

/-- To resolve a dynamic site adds at most the site with the callee filled in. -/
theorem get?_resolve {x : CallSite} (h : (t.resolve i m).2.get? j = some x) :
    t.get? j = some x ∨ ∃ site, t.dynamic? i = some site ∧ x = .static (site.resolved j m) := by
  unfold resolve at h
  split at h
  · exact .inl h
  split at h
  · exact .inl h
  next site hsite =>
  refine (get?_push.1 h).imp_right ?_
  rintro ⟨rfl, rfl⟩
  exact ⟨site, hsite, rfl⟩

/-- A dynamic site can be resolved to any callee. -/
theorem exists_resolve (h : t.dynamic? i = some site) : ∃ j, (t.resolve i m).1 = some j := by
  unfold resolve
  cases hj : t.resolutions[(i, m)]? with
  | some j => exact ⟨j, rfl⟩
  | none =>
    rw [h]
    exact ⟨_, rfl⟩

/-- The site that a dynamic site is resolved to is the dynamic one with the callee filled in. -/
theorem static?_of_resolve (h : t.Valid) (hr : (t.resolve i m).1 = some j) :
    ∃ site, t.dynamic? i = some site ∧
      (t.resolve i m).2.static? j = some (site.resolved j m) := by
  unfold resolve at hr ⊢
  split
  · next hj =>
    simp only [hj] at hr
    cases hr
    exact h.resolutions i m _ hj
  · next hj =>
    cases hs : t.dynamic? i with
    | none => simp [hj, hs] at hr
    | some site =>
      simp only [hj, hs, Option.some.injEq] at hr
      subst hr
      exact ⟨site, rfl, static?_eq_some.2 (get?_push.2 (.inr ⟨rfl, rfl⟩))⟩

end

end SiteTable

/-- A call site apart from its number and its caller. -/
def StaticSite.content (a : StaticSite) : StaticSite := { a with id := ⟨0⟩, caller := ⟨0⟩ }

/-- A call of a statement that resolves no other site and takes values as arguments. -/
def StaticSite.IsPlain (a : StaticSite) : Prop :=
  a.origin = none ∧ ∃ args : List ValueId, a.args = some (args.map CallArg.value)

/-- A call of a statement of `m` on a value. -/
def DynamicSite.IsPlain (m : MethodId) (a : DynamicSite) : Prop :=
  a.caller = m ∧ (∃ v, a.receiver = some (.value v)) ∧
    ∃ args : List ValueId, a.args = some (args.map CallArg.value)

namespace Scene

/-- The call site of a statement and a callee, apart from number and caller. -/
def siteAt (stmt : StmtId) (signature : Signature) (args : List ValueId)
    (target receiver : Option ValueId) (callee : MethodId) : StaticSite where
  id := ⟨0⟩
  stmt := some stmt
  signature := signature
  args := some (args.map CallArg.value)
  target := target
  receiver := receiver
  caller := ⟨0⟩
  callee := callee
  origin := none

/-- The call sites that the class hierarchy gives for a call expression of a statement, apart from
number and caller. -/
def sitesOf (s : Scene) (stmt : StmtId) (target : Option ValueId) : Value → Scan (List StaticSite)
  | .staticCall signature args =>
    return (s.methodOf? signature).toList.map (siteAt stmt signature args target none)
  | .instanceCall base signature args => do
    return (← s.hierarchyTargets signature).map (siteAt stmt signature args target (some base))
  | _ => return []

/-- The call sites that the class hierarchy gives for a statement, apart from number and caller. -/
def staticSites (s : Scene) (stmt : StmtId) : Scan (List StaticSite) := do
  match ← s.callExpr? stmt with
  | none => return []
  | some expr =>
    let decl ← s.stmt stmt
    s.sitesOf stmt decl.target? (← s.value expr)

/-- Whether a statement is one of the body of a method. -/
def HasStmt (s : Scene) (m : MethodId) (stmt : StmtId) : Prop :=
  ∃ decl, s.method m = .ok decl ∧ stmt ∈ decl.stmts

/-- The call sites of a statement, whatever notices there are. -/
def Resolves (s : Scene) (stmt : StmtId) (contents : List StaticSite) : Prop :=
  ∃ log log', s.staticSites stmt log = .ok contents log'

end Scene

namespace CallGraph

/-- Whether a call site has a known callee. -/
def IsStatic (g : CallGraph) (i : SiteId) : Prop := ∃ site, g.sites.static? i = some site

/-- What a site with a known callee is apart from its number and its caller. -/
def content? (g : CallGraph) (i : SiteId) : Option StaticSite :=
  (g.sites.static? i).map (·.content)

/-- The sites that statements were resolved to are those that the scene gives, and their callers
have the statement. -/
def Listed (scene : Scene) (g : CallGraph) : Prop :=
  ∀ (stmt : StmtId) (sites : List SiteId), g.stmtSites[stmt]? = some sites →
    (∃ contents, scene.Resolves stmt contents ∧ sites.map g.content? = contents.map some) ∧
      ∀ i ∈ sites, ∀ site, g.sites.static? i = some site → scene.HasStmt site.caller stmt

/-- Whether a site is one that a statement of a method was resolved to. -/
def Lists (scene : Scene) (g : CallGraph) (m : MethodId) (i : SiteId) : Prop :=
  ∃ stmt sites, scene.HasStmt m stmt ∧ g.stmtSites[stmt]? = some sites ∧ i ∈ sites

/-- `g'` has everything that `g` has. -/
structure Grows (scene : Scene) (g g' : CallGraph) : Prop where
  sites : g.sites.Grows g'.sites
  edges : ∀ e ∈ g.edges, e ∈ g'.edges
  nodeOf : ∀ (m : MethodId) (i : Nat), g.nodeOf[m]? = some i → g'.nodeOf[m]? = some i
  stmts : ∀ (stmt : StmtId) (sites : List SiteId), g.stmtSites[stmt]? = some sites →
    g'.stmtSites[stmt]? = some sites
  listed : g.Listed scene → g'.Listed scene
  /-- A node with a kind stays as it is. -/
  classified : ∀ (i : Nat) n, g.nodes[i]? = some n → n.kind ≠ .blank → g'.nodes[i]? = some n

variable {scene : Scene}

instance : Std.Refl (Grows scene) :=
  ⟨fun _ => ⟨Std.Refl.refl _, fun _ h => h, fun _ _ h => h, fun _ _ h => h, id, fun _ _ h _ => h⟩⟩

theorem Grows.refl (g : CallGraph) : g.Grows scene g := Std.Refl.refl g

variable {g g' : CallGraph} {site i : SiteId} {caller callee m : MethodId} {sites : List SiteId}
  {contents : List StaticSite} {stmt : StmtId} {signature : Signature} {args : List CallArg}
  {target receiver : Option ValueId} {callees : List MethodId} {log : Array Notice}
  {kind : MethodKind}

theorem Grows.trans {g'' : CallGraph} (h : g.Grows scene g') (h' : g'.Grows scene g'') :
    g.Grows scene g'' where
  sites := Trans.trans h.sites h'.sites
  edges e he := h'.edges e (h.edges e he)
  nodeOf m i hm := h'.nodeOf m i (h.nodeOf m i hm)
  stmts stmt sites hs := h'.stmts stmt sites (h.stmts stmt sites hs)
  listed := h'.listed ∘ h.listed
  classified i n hn hk := h'.classified i n (h.classified i n hn hk) hk

instance : Trans (Grows scene) (Grows scene) (Grows scene) := ⟨Grows.trans⟩

theorem content?_mono (h : g.sites.Grows g'.sites) {a : StaticSite} (ha : g.content? i = some a) :
    g'.content? i = some a := by
  obtain ⟨site, hsite, rfl⟩ := Option.map_eq_some_iff.1 ha
  exact Option.map_eq_some_iff.2 ⟨site, h.static? hsite, rfl⟩

/-- Sites that are known stay so. -/
theorem map_content?_mono (h : g.sites.Grows g'.sites)
    (hs : sites.map g.content? = contents.map some) :
    sites.map g'.content? = contents.map some := by
  rw [← hs]
  refine List.map_congr_left fun i hi => ?_
  have hmem : g.content? i ∈ contents.map some := hs ▸ List.mem_map_of_mem hi
  obtain ⟨a, -, ha⟩ := List.mem_map.1 hmem
  rw [← ha, content?_mono h ha.symm]

theorem isStatic_of_mem (hs : sites.map g.content? = contents.map some) (hi : i ∈ sites) :
    g.IsStatic i := by
  have hmem : g.content? i ∈ contents.map some := hs ▸ List.mem_map_of_mem hi
  obtain ⟨a, -, ha⟩ := List.mem_map.1 hmem
  obtain ⟨site, hsite, -⟩ := Option.map_eq_some_iff.1 ha.symm
  exact ⟨site, hsite⟩

theorem IsStatic.mono (h : g.IsStatic i) (hg : g.sites.Grows g'.sites) : g'.IsStatic i := by
  obtain ⟨site, hsite⟩ := h
  exact ⟨site, hg.static? hsite⟩

theorem grows_sites {sites : SiteTable} (h : g.sites.Grows sites) :
    g.Grows scene { g with sites } where
  sites := h
  edges _ he := he
  nodeOf _ _ hm := hm
  stmts _ _ hs := hs
  listed hl stmt sites' hs := by
    obtain ⟨⟨contents, hc, hmap⟩, hcaller⟩ := hl stmt sites' hs
    have hgrows : g.sites.Grows ({ g with sites } : CallGraph).sites := h
    refine ⟨⟨contents, hc, map_content?_mono hgrows hmap⟩, fun i hi site hsite => ?_⟩
    obtain ⟨site', hsite'⟩ := isStatic_of_mem hmap hi
    cases Option.some.inj ((hgrows.static? hsite').symm.trans hsite)
    exact hcaller i hi site hsite'
  classified _ _ hn _ := hn

theorem Lists.mono (h : g.Lists scene m i) (hg : g.Grows scene g') : g'.Lists scene m i := by
  obtain ⟨stmt, sites, hstmt, hsites, hi⟩ := h
  exact ⟨stmt, sites, hstmt, hg.stmts stmt sites hsites, hi⟩

theorem Lists.isStatic (h : g.Lists scene m i) (hg : g.Listed scene) : g.IsStatic i := by
  obtain ⟨stmt, sites, -, hsites, hi⟩ := h
  obtain ⟨⟨contents, -, hmap⟩, -⟩ := hg stmt sites hsites
  exact isStatic_of_mem hmap hi

theorem addSites_grows {args : List ValueId} :
    g.Grows scene (g.addSites stmt signature (args.map .value) target receiver caller callees).2 ∧
      (g.addSites stmt signature (args.map .value) target receiver caller callees).1.map
          (g.addSites stmt signature (args.map .value) target receiver caller callees).2.content? =
        (callees.map (Scene.siteAt stmt signature args target receiver)).map some ∧
      ∀ i ∈ (g.addSites stmt signature (args.map .value) target receiver caller callees).1,
        ∀ site, (g.addSites stmt signature (args.map .value) target receiver caller
          callees).2.sites.static? i = some site → site.caller = caller := by
  induction callees generalizing g with
  | nil => exact ⟨Std.Refl.refl _, rfl, nofun⟩
  | cons callee rest ih =>
    obtain ⟨hgrows, hmap, hcaller⟩ := @ih { g with
      sites := (g.sites.addStatic (some stmt) signature (some (args.map .value)) target receiver
        caller callee).2 }
    -- the first site is there before the others are added
    have hfirst : (g.addSites stmt signature (args.map .value) target receiver caller
        (callee :: rest)).2.sites.static? g.sites.nextId = some _ :=
      hgrows.sites.static? SiteTable.static?_addStatic
    refine ⟨(grows_sites SiteTable.addStatic_grows).trans hgrows, ?_, fun i hi site hsite => ?_⟩
    · exact List.cons_eq_cons.2 ⟨Option.map_eq_some_iff.2 ⟨_, hfirst, rfl⟩, hmap⟩
    · rcases List.mem_cons.1 hi with rfl | hi
      · cases Option.some.inj (hfirst.symm.trans hsite)
        rfl
      · exact hcaller i hi site hsite

/-- New sites change nothing else. -/
theorem addSites_frame : (g.addSites stmt signature args target receiver caller callees).2 =
      { g with sites := (g.addSites stmt signature args target receiver caller callees).2.sites } := by
  induction callees generalizing g with
  | nil => rfl
  | cons callee rest ih => exact ih (g := { g with sites := _ })

/-- The sites that the scene gives for a statement are kept for it. -/
theorem Grows.insertSites (h : g.Grows scene g') (hsame : g'.stmtSites = g.stmtSites)
    (hnew : g.stmtSites[stmt]? = none) (hc : scene.Resolves stmt contents)
    (hs : sites.map g'.content? = contents.map some)
    (hcaller : ∀ i ∈ sites, ∀ site, g'.sites.static? i = some site →
      scene.HasStmt site.caller stmt) :
    g.Grows scene { g' with stmtSites := g'.stmtSites.insert stmt sites } := by
  refine ⟨h.sites, h.edges, h.nodeOf, fun k known hk => ?_, fun hl stmt' sites' hsites => ?_,
    h.classified⟩
  · rw [getElem?_insert, if_neg, hsame, hk]
    rintro rfl
    rw [hnew] at hk
    cases hk
  · rw [getElem?_insert] at hsites
    split at hsites
    · next heq =>
      subst heq
      cases hsites
      exact ⟨⟨contents, hc, hs⟩, hcaller⟩
    · exact h.listed hl stmt' sites' hsites

/-- The sites of a statement are those that the scene gives, and they are kept. -/
theorem ensures_resolveStmt (hg : g.Listed scene) (hstmt : scene.HasStmt caller stmt) :
    Ensures (g.resolveStmt scene stmt caller) log fun r _ => g.Grows scene r.2 ∧
      (∃ contents, scene.Resolves stmt contents ∧ r.1.map r.2.content? = contents.map some) ∧
      (r.1 ≠ [] → r.2.stmtSites[stmt]? = some r.1) ∧
      r.2 = { g with sites := r.2.sites, stmtSites := r.2.stmtSites } := by
  refine ensures_of_fault fun r log' hrun => ?_
  have hnone : ∀ {contents}, scene.Resolves stmt contents → contents = [] → r = ([], g) →
      g.Grows scene r.2 ∧
        (∃ contents, scene.Resolves stmt contents ∧ r.1.map r.2.content? = contents.map some) ∧
        (r.1 ≠ [] → r.2.stmtSites[stmt]? = some r.1) ∧
        r.2 = { g with sites := r.2.sites, stmtSites := r.2.stmtSites } := by
    rintro _ hc rfl rfl
    exact ⟨Std.Refl.refl _, ⟨[], hc, rfl⟩, fun h => absurd rfl h, rfl⟩
  cases hsites : g.stmtSites[stmt]? with
  | some sites =>
    simp only [resolveStmt, hsites] at hrun
    cases hrun
    exact ⟨Std.Refl.refl _, (hg stmt sites hsites).1, fun _ => hsites, rfl⟩
  | none =>
  simp only [resolveStmt, hsites] at hrun
  obtain ⟨expr?, log₁, hexpr, hrun⟩ := bind_eq_ok.1 hrun
  cases expr? with
  | none =>
    cases hrun
    exact hnone ⟨log, _, bind_eq_ok.2 ⟨none, _, hexpr, rfl⟩⟩ rfl rfl
  | some expr =>
    obtain ⟨decl, log₂, hdecl, hrun⟩ := bind_eq_ok.1 hrun
    obtain ⟨value, log₃, hvalue, hrun⟩ := bind_eq_ok.1 hrun
    have hresolves : ∀ {contents}, scene.sitesOf stmt decl.target? value log₃ = .ok contents log' →
        scene.Resolves stmt contents := fun h => ⟨log, log', bind_eq_ok.2 ⟨_, _, hexpr,
      bind_eq_ok.2 ⟨_, _, hdecl, bind_eq_ok.2 ⟨_, _, hvalue, h⟩⟩⟩⟩
    split at hrun
    · cases hrun
      obtain ⟨hgrows, hmap, hcaller⟩ := addSites_grows (g := g)
      have hc := hresolves rfl
      refine ⟨hgrows.insertSites (by rw [addSites_frame]) hsites hc hmap fun i hi site hsite => ?_,
        ⟨_, hc, hmap⟩, fun _ => by simp, by rw [addSites_frame]⟩
      exact hcaller i hi site hsite ▸ hstmt
    · obtain ⟨callees, log₄, hcallees, hrun⟩ := bind_eq_ok.1 hrun
      cases hrun
      obtain ⟨hgrows, hmap, hcaller⟩ := addSites_grows (g := g)
      have hc := hresolves (bind_eq_ok.2 ⟨_, _, hcallees, rfl⟩)
      refine ⟨hgrows.insertSites (by rw [addSites_frame]) hsites hc hmap fun i hi site hsite => ?_,
        ⟨_, hc, hmap⟩, fun _ => by simp, by rw [addSites_frame]⟩
      exact hcaller i hi site hsite ▸ hstmt
    · next hstatic hinstance =>
      cases hrun
      refine hnone (hresolves ?_) rfl rfl
      unfold Scene.sitesOf
      split
      · exact absurd rfl (hstatic _ _)
      · exact absurd rfl (hinstance _ _ _)
      · rfl

/-- All sites of `g'` that `g` does not have belong to the method `m`. -/
def AddsFor (m : MethodId) (g g' : CallGraph) : Prop :=
  ∀ i site, g'.sites.get? i = some site → g.sites.get? i = some site ∨ site.caller = m

theorem addsFor_addSites :
    AddsFor caller g (g.addSites stmt signature args target receiver caller callees).2 := by
  induction callees generalizing g with
  | nil => exact fun _ _ h => .inl h
  | cons callee rest ih =>
    intro i site hsite
    rcases ih i site hsite with hsite | hcaller
    · rcases SiteTable.get?_push.1 hsite with hold | ⟨-, rfl⟩
      · exact .inl hold
      · exact .inr rfl
    · exact .inr hcaller

/-- Looking up the sites of a statement changes nothing, or adds sites for it. -/
theorem ensures_resolveStmt_of {R : CallGraph → Prop} (hsame : R g)
    (hadd : ∀ signature args target receiver callees stmtSites, R
      { (g.addSites stmt signature args target receiver caller callees).2 with stmtSites }) :
    Ensures (g.resolveStmt scene stmt caller) log fun r _ => R r.2 := by
  have hany : ∀ {α : Type} {q : Scan α} {log : Array Notice}, Ensures q log fun _ _ => True :=
    fun {_ _ _} => ensures_of_fault fun _ _ _ => trivial
  unfold resolveStmt
  split
  · exact ensures_pure hsame
  refine ensures_bind hany fun expr? _ _ => ?_
  cases expr? with
  | none => exact ensures_pure hsame
  | some expr =>
    refine ensures_bind hany fun decl _ _ => ensures_bind hany fun value _ _ => ?_
    cases value with
    | staticCall => exact ensures_pure (hadd ..)
    | instanceCall => exact ensures_bind hany fun callees _ _ => ensures_pure (hadd ..)
    | _ => exact ensures_pure hsame

theorem ensures_resolveStmt_addsFor :
    Ensures (g.resolveStmt scene stmt caller) log fun r _ => AddsFor caller g r.2 :=
  ensures_resolveStmt_of (fun _ _ h => .inl h) fun _ _ _ _ _ _ => addsFor_addSites

theorem touch_grows : g.Grows scene (g.touch m).2 := by
  unfold touch
  split
  · exact Std.Refl.refl _
  · next hnew =>
    refine ⟨Std.Refl.refl _, fun _ he => he, fun k i hk => ?_, fun _ _ hs => hs, id,
      fun _ _ hn _ => getElem?_push_of_eq_some hn⟩
    rw [getElem?_insert, if_neg, hk]
    rintro rfl
    simp [hnew] at hk

theorem addNode_grows : g.Grows scene (g.addNode m kind).2 := by
  have h : g.Grows scene (g.touch m).2 := touch_grows
  refine ⟨h.sites, h.edges, h.nodeOf, h.stmts, h.listed, fun i n hn hk => ?_⟩
  simp only [addNode, Array.getElem?_modify, h.classified i n hn hk, Option.map_some, hk, if_false,
    ite_self]

theorem addEdge_grows {type : CallType} : g.Grows scene (g.addEdge site caller callee type).2 := by
  have h : g.Grows scene ((g.touch caller).2.touch callee).2 := touch_grows.trans touch_grows
  unfold addEdge
  dsimp only
  split
  · exact h
  · exact ⟨h.sites, fun e he => Array.mem_push_of_mem _ (h.edges e he), h.nodeOf, h.stmts,
      h.listed, h.classified⟩

theorem sites_touch : (g.touch m).2.sites = g.sites := by
  unfold touch
  split <;> rfl

theorem sites_addNode : (g.addNode m kind).2.sites = g.sites := sites_touch

theorem sites_addEdge {type : CallType} :
    (g.addEdge site caller callee type).2.sites = g.sites := by
  unfold addEdge
  dsimp only
  split <;> exact sites_touch.trans sites_touch

end CallGraph

namespace Surveying

/-- `v'` has more call sites of `m` than `v`, and what it takes for resolved is a call of `m`. -/
structure Adds (scene : Scene) (m : MethodId) (v v' : Survey) : Prop where
  calls : v.calls.Grows scene v'.calls
  own : CallGraph.AddsFor m v.calls v'.calls
  frame : v'.calls = { v.calls with sites := v'.calls.sites, stmtSites := v'.calls.stmtSites }
  static : ∀ i ∈ v'.summary.staticCalls, i ∈ v.summary.staticCalls ∨ v'.calls.Lists scene m i

variable {scene : Scene} {m : MethodId} {v v' : Survey} {α : Type} {stmt : StmtId}
  {explains writes : Bool}

theorem adds_of_eq (hcalls : v'.calls = v.calls)
    (hstatic : v'.summary.staticCalls = v.summary.staticCalls) : Adds scene m v v' :=
  ⟨hcalls ▸ .refl _, fun _ _ h => .inl (hcalls ▸ h), by rw [hcalls],
    fun _ hi => .inl (hstatic ▸ hi)⟩

instance : Std.Refl (Adds scene m) := ⟨fun _ => adds_of_eq rfl rfl⟩

theorem Adds.trans {v'' : Survey} (h : Adds scene m v v') (h' : Adds scene m v' v'') :
    Adds scene m v v'' where
  calls := h.calls.trans h'.calls
  own i site hsite := (h'.own i site hsite).elim (h.own i site) .inr
  frame := h'.frame.trans (by rw [h.frame])
  static i hi := (h'.static i hi).elim
    (fun hi => (h.static i hi).imp_right fun hs => hs.mono h'.calls) .inr

instance : Trans (Adds scene m) (Adds scene m) (Adds scene m) := ⟨Adds.trans⟩

/-- A part of a survey that only adds sites. -/
abbrev Collects {α : Type} (scene : Scene) (m : MethodId) (x : Surveying α) : Prop :=
  Follows (fun v => v.calls.Listed scene) (Adds scene m) x

instance : Preserves (fun v : Survey => v.calls.Listed scene) (Adds scene m) :=
  ⟨fun _ _ h hl => h.calls.listed hl⟩

theorem adds_scan (q : Scan α) : Collects scene m (scan q) := by
  refine fun v _ => ensures_of_fault fun a v' h => ?_
  unfold scan at h
  split at h
  · cases h
    exact adds_of_eq rfl rfl
  · cases h

theorem adds_lift (x : Except Fault α) : Collects scene m (liftM x : Surveying α) := adds_scan _

theorem adds_modifySummary {f : Summary → Summary}
    (hf : ∀ s, (f s).staticCalls = s.staticCalls) : Collects scene m (modifySummary f) :=
  .modify fun _ _ => adds_of_eq rfl (hf _)

theorem adds_capture {v : ValueId} : Collects scene m (capture scene m v writes) := by
  refine .bind (adds_lift _) fun value => ?_
  split
  · exact .pure ()
  refine .bind (adds_lift _) fun declared => ?_
  split
  · exact .pure ()
  split
  · exact .pure ()
  refine .bind (adds_scan _) fun found => ?_
  split
  · exact .modify fun _ _ => adds_of_eq rfl rfl
  · refine .bind (adds_lift _) fun name => ?_
    exact .bind (adds_lift _) fun decl => adds_scan _

theorem adds_first {p : Place} {v : ValueId} : Collects scene m (first p v) :=
  .modifyGet fun _ _ => adds_of_eq rfl rfl

theorem adds_operand {v : ValueId} : Collects scene m (operand scene m v writes) := by
  refine .bind (adds_lift _) fun value => ?_
  split
  · exact .bind adds_capture fun _ => .pure v
  · refine .bind adds_capture fun _ => .bind (adds_lift _) fun place? => ?_
    split
    · split
      · exact adds_first
      · exact .pure v
    · exact .pure v
  · exact .bind adds_capture fun _ => .pure v
  · exact adds_first
  · exact .pure v

theorem adds_addDynamicCall {signature : Signature} {receiver : ValueId} {args : List ValueId}
    {prototype : Option MethodId} :
    Collects scene m (addDynamicCall scene m stmt signature receiver args prototype) := by
  refine .bind (adds_lift _) fun decl => ?_
  refine .bind (.modifyGet fun _ _ => ?_) fun site => ?_
  · refine ⟨CallGraph.grows_sites SiteTable.addDynamic_grows, fun i site hsite => ?_, rfl,
      fun _ hi => .inl hi⟩
    rcases SiteTable.get?_push.1 hsite with hold | ⟨-, rfl⟩
    · exact .inl hold
    · exact .inr rfl
  split <;> exact adds_modifySummary fun _ => rfl

theorem ensures_scan {q : Scan α} {P : α → Prop} (h : Ensures q v.log fun a _ => P a) :
    Ensures (scan q) v fun a v' => P a ∧ ∃ log, v' = { v with log } := by
  refine ensures_of_fault fun a v' ha => ?_
  unfold scan at ha
  split at ha
  · next hq =>
    cases ha
    exact ⟨h.1 hq, _, rfl⟩
  · cases ha

theorem adds_call {expr : ValueId} (hstmt : scene.HasStmt m stmt) :
    Collects scene m (call scene m stmt expr) := by
  refine .bind (adds_lift _) fun value => ?_
  refine .bind (.forM fun v _ => .discard adds_operand) fun _ v hv => ?_
  refine ensures_get_bind (ensures_bind (ensures_scan
    (P := fun r => _ ∧ CallGraph.AddsFor m v.calls r.2)
    ((CallGraph.ensures_resolveStmt hv hstmt).and CallGraph.ensures_resolveStmt_addsFor)) ?_)
  rintro ⟨sites, calls⟩ _ ⟨⟨⟨hgrows, -, hsites, hframe⟩, hown⟩, log, rfl⟩
  refine ensures_modify_bind ?_
  have h₂ : Adds scene m v { v with log, calls } := ⟨hgrows, hown, hframe, fun _ hi => .inl hi⟩
  have hv₂ : calls.Listed scene := hgrows.listed hv
  refine Ensures.mono (Q := fun _ v' => Adds scene m { v with log, calls } v') ?_
    fun _ v' h' => h₂.trans h'
  split
  · next hsome =>
    refine ensures_modify_bind (ensures_pure ?_)
    refine ⟨Std.Refl.refl _, fun _ _ h => .inl h, rfl, fun i hi => ?_⟩
    rcases Array.mem_append.1 hi with hi | hi
    · exact .inl hi
    · exact .inr ⟨stmt, sites, hstmt, hsites (by simpa using hsome), List.mem_toArray.1 hi⟩
  split
  · exact adds_addDynamicCall _ hv₂
  · exact adds_addDynamicCall _ hv₂
  · exact Follows.bind (adds_lift _) (fun decl => adds_scan _) _ hv₂
  · exact ensures_pure (Std.Refl.refl _)

theorem adds_assign {target source : ValueId} (hstmt : scene.HasStmt m stmt) :
    Collects scene m (assign scene explains m stmt target source) := by
  refine .bind (adds_lift _) fun value => ?_
  split
  · exact .pure ()
  · exact .pure ()
  split
  · exact .bind adds_operand fun _ => adds_call hstmt
  refine .bind adds_operand fun target => ?_
  split
  · refine .bind (adds_lift _) fun decl => ?_
    split
    · exact adds_lift _
    refine .bind (adds_lift _) fun heap => ?_
    split
    · exact adds_modifySummary fun _ => rfl
    · exact adds_modifySummary fun _ => rfl
  split
  · refine .bind adds_operand fun source => .bind (adds_lift _) fun intoHeap => ?_
    refine .bind (adds_lift _) fun fromHeap => ?_
    split
    · exact adds_modifySummary fun _ => rfl
    · exact adds_lift _
  · exact .pure ()

theorem adds_statement {i : StmtId} (hi : scene.HasStmt m i) :
    Collects scene m (statement scene explains m i) := by
  refine .bind (adds_lift _) fun decl => ?_
  split
  · exact adds_assign hi
  · exact adds_call hi
  · exact .bind adds_operand fun v => adds_modifySummary fun _ => rfl
  · exact .pure ()
  · exact .pure ()

theorem eq_ok_of_lift {x : Except Fault α} {a : α} (h : (liftM x : Surveying α) v = .ok a v') :
    x = .ok a := by
  cases x with
  | error e => cases h
  | ok b =>
    cases h
    rfl

theorem adds_body : Collects scene m (body scene explains m) := by
  refine fun v hv => ensures_of_fault fun _ v' hrun => ?_
  obtain ⟨decl, v₁, hdecl, hrun⟩ := bind_eq_ok.1 hrun
  have h₁ : Adds scene m v v₁ := (adds_lift _ v hv).1 hdecl
  have hstmt : ∀ i ∈ decl.stmts, scene.HasStmt m i := fun i hi => ⟨decl, eq_ok_of_lift hdecl, hi⟩
  exact h₁.trans ((Follows.forM (fun i hi => adds_statement (hstmt i hi)) v₁
    (h₁.calls.listed hv)).1 hrun)

end Surveying

theorem Capture.mem_owners {captures : List Capture} {m : MethodId} :
    m ∈ Capture.owners captures ↔ ∃ c ∈ captures, c.owner = m := by
  have hfold := mem_foldl_insert (captures.map (·.owner)) ∅ m
  rw [List.foldl_map] at hfold
  rw [Capture.owners, Std.TreeSet.mem_toList, hfold]
  simp

end PointsTo
