import PointsTo.Proofs.Call.Edges
import PointsTo.Proofs.Scene.Scans

/-! Every position that the call sites and the call graph store exists. -/
namespace PointsTo

section Refs

variable (P : Positions)

/-! What holds of every position that a call site or a call graph stores. -/

def CallArg.Refs : CallArg → Prop
  | .value v => P .value v
  | .node n => P .node n

structure StaticSite.Refs (a : StaticSite) : Prop where
  id : P .site a.id
  stmt : ∀ i ∈ a.stmt, P .stmt i
  args : ∀ l ∈ a.args, ∀ x ∈ l, x.Refs P
  target : ∀ v ∈ a.target, P .value v
  receiver : ∀ v ∈ a.receiver, P .value v
  caller : P .method a.caller
  callee : P .method a.callee
  origin : ∀ i ∈ a.origin, P .site i

structure DynamicSite.Refs (a : DynamicSite) : Prop where
  id : P .site a.id
  stmt : ∀ i ∈ a.stmt, P .stmt i
  args : ∀ l ∈ a.args, ∀ x ∈ l, x.Refs P
  target : ∀ v ∈ a.target, P .value v
  receiver : ∀ x ∈ a.receiver, x.Refs P
  caller : P .method a.caller
  prototype : ∀ m ∈ a.prototype, P .method m

def CallSite.Refs : CallSite → Prop
  | .static a => a.Refs P
  | .dynamic a => a.Refs P

structure SiteTable.Refs (t : SiteTable) : Prop where
  sites : ∀ a ∈ t.sites, a.Refs P
  resolutions : ∀ (i : SiteId) (m : MethodId) j, t.resolutions[(i, m)]? = some j →
    P .site i ∧ P .method m ∧ P .site j

structure CallGraph.Refs (g : CallGraph) : Prop where
  nodes : ∀ n ∈ g.nodes, P .method n.method
  edges : ∀ e ∈ g.edges, P .site e.site
  nodeOf : ∀ (m : MethodId) (i : Nat), g.nodeOf[m]? = some i → P .method m
  siteEdges : ∀ (i : SiteId) (l : List Nat), g.siteEdges[i]? = some l → P .site i
  reached : ∀ m ∈ g.reached, P .method m
  stmtSites : ∀ (i : StmtId) l, g.stmtSites[i]? = some l → P .stmt i ∧ ∀ j ∈ l, P .site j
  sites : g.sites.Refs P

variable {P} {Q : Positions} (hPQ : ∀ t r, P t r → Q t r)

include hPQ

theorem CallArg.Refs.mono {x : CallArg} (h : x.Refs P) : x.Refs Q := by
  cases x <;> exact hPQ _ _ h

theorem StaticSite.Refs.mono {a : StaticSite} (h : a.Refs P) : a.Refs Q where
  id := hPQ _ _ h.id
  stmt i hi := hPQ _ _ (h.stmt i hi)
  args l hl x hx := (h.args l hl x hx).mono hPQ
  target v hv := hPQ _ _ (h.target v hv)
  receiver v hv := hPQ _ _ (h.receiver v hv)
  caller := hPQ _ _ h.caller
  callee := hPQ _ _ h.callee
  origin i hi := hPQ _ _ (h.origin i hi)

theorem DynamicSite.Refs.mono {a : DynamicSite} (h : a.Refs P) : a.Refs Q where
  id := hPQ _ _ h.id
  stmt i hi := hPQ _ _ (h.stmt i hi)
  args l hl x hx := (h.args l hl x hx).mono hPQ
  target v hv := hPQ _ _ (h.target v hv)
  receiver x hx := (h.receiver x hx).mono hPQ
  caller := hPQ _ _ h.caller
  prototype m hm := hPQ _ _ (h.prototype m hm)

theorem SiteTable.Refs.mono {t : SiteTable} (h : t.Refs P) : t.Refs Q where
  sites a ha := by
    cases a with
    | static a => exact StaticSite.Refs.mono hPQ (h.sites _ ha)
    | dynamic a => exact DynamicSite.Refs.mono hPQ (h.sites _ ha)
  resolutions i m j hj :=
    have hj := h.resolutions i m j hj
    ⟨hPQ _ _ hj.1, hPQ _ _ hj.2.1, hPQ _ _ hj.2.2⟩

theorem CallGraph.Refs.mono {g : CallGraph} (h : g.Refs P) : g.Refs Q where
  nodes n hn := hPQ _ _ (h.nodes n hn)
  edges e he := hPQ _ _ (h.edges e he)
  nodeOf m i hm := hPQ _ _ (h.nodeOf m i hm)
  siteEdges i l hl := hPQ _ _ (h.siteEdges i l hl)
  reached m hm := hPQ _ _ (h.reached m hm)
  stmtSites i l hl := (h.stmtSites i l hl).imp (hPQ _ _) fun hj j hmem => hPQ _ _ (hj j hmem)
  sites := h.sites.mono hPQ

end Refs

section Parts

variable {P : Positions} {m : MethodId} {A : Prop}

theorem CallArg.Refs.when {x : CallArg} (h : A → x.Refs P) : x.Refs fun t r => A → P t r := by
  cases x <;> exact h

theorem StaticSite.Refs.when {a : StaticSite} (h : A → a.Refs P) : a.Refs fun t r => A → P t r where
  id hA := (h hA).id
  stmt i hi hA := (h hA).stmt i hi
  args l hl x hx := .when fun hA => (h hA).args l hl x hx
  target v hv hA := (h hA).target v hv
  receiver v hv hA := (h hA).receiver v hv
  caller hA := (h hA).caller
  callee hA := (h hA).callee
  origin i hi hA := (h hA).origin i hi

theorem DynamicSite.Refs.when {a : DynamicSite} (h : A → a.Refs P) :
    a.Refs fun t r => A → P t r where
  id hA := (h hA).id
  stmt i hi hA := (h hA).stmt i hi
  args l hl x hx := .when fun hA => (h hA).args l hl x hx
  target v hv hA := (h hA).target v hv
  receiver x hx := .when fun hA => (h hA).receiver x hx
  caller hA := (h hA).caller
  prototype m hm hA := (h hA).prototype m hm

/-- The call of a dynamic site with one of its callees filled in. -/
theorem DynamicSite.Refs.resolved {a : DynamicSite} (h : a.Refs P) {j : SiteId} (hj : P .site j)
    (hm : P .method m) : (a.resolved j m).Refs P where
  id := hj
  stmt := h.stmt
  args := h.args
  target := h.target
  receiver := by
    have hreceiver := h.receiver
    unfold DynamicSite.resolved
    split
    · next v hv =>
      rintro _ ⟨⟩
      exact hreceiver _ hv
    · nofun
  caller := h.caller
  callee := hm
  origin := by
    rintro _ ⟨⟩
    exact h.id

end Parts

namespace SiteTable

/-- The sizes of all tables, given those apart from the call sites. -/
def sizes (t : SiteTable) (k : Table → Nat) : Table → Nat
  | .site => t.sites.size
  | x => k x

/-- Every position that the call sites store exists. -/
abbrev InRange (scene : Scene) (k : Table → Nat) (t : SiteTable) : Prop :=
  t.Refs (scene.Within (t.sizes k))

/-- Nothing is taken away. -/
def Widens (t t' : SiteTable) : Prop := t.sites.size ≤ t'.sites.size

variable {P : Positions} {scene : Scene} {k : Table → Nat} {t t' : SiteTable} {i : SiteId}
  {m : MethodId}

theorem Widens.within (h : t.Widens t') (x : Table) (r : Ref x)
    (hr : scene.Within (t.sizes k) x r) : scene.Within (t'.sizes k) x r := by
  refine hr.mono fun x => ?_
  cases x with
  | site => exact h
  | _ => exact Nat.le_refl _

theorem Refs.static? (h : t.Refs P) {a : StaticSite} (ha : t.static? i = some a) : a.Refs P :=
  h.sites _ (Array.mem_of_getElem? (static?_eq_some.1 ha))

theorem Refs.dynamic? (h : t.Refs P) {a : DynamicSite} (ha : t.dynamic? i = some a) : a.Refs P :=
  h.sites _ (Array.mem_of_getElem? (dynamic?_eq_some.1 ha))

/-- The table with one more site. -/
def withSite (t : SiteTable) (a : CallSite) : SiteTable := { t with sites := t.sites.push a }

theorem widens_withSite (a : CallSite) : t.Widens (t.withSite a) := by simp [Widens, withSite]

theorem InRange.withSite (h : t.InRange scene k) {a : CallSite}
    (ha : a.Refs (scene.Within ((t.withSite a).sizes k))) : (t.withSite a).InRange scene k := by
  have hrefs := h.mono (widens_withSite a).within
  exact { hrefs with sites := Array.forall_mem_push.2 ⟨ha, hrefs.sites⟩ }

theorem within_nextId (a : CallSite) :
    scene.Within ((t.withSite a).sizes k) .site t.nextId := by
  simp [Scene.Within, sizes, SiteTable.withSite, nextId]

section Add

variable {stmt : Option StmtId} {signature : Signature} {args : Option (List CallArg)}
  {target : Option ValueId} {caller : MethodId}
  (hstmt : ∀ i ∈ stmt, scene.Sure i)
  (hargs : ∀ l ∈ args, ∀ x ∈ l, x.Refs (scene.Within (t.sizes k)))
  (htarget : ∀ v ∈ target, scene.Sure v)
  (hcaller : scene.Sure caller)

include hstmt hargs htarget hcaller

theorem InRange.addStatic (h : t.InRange scene k) {receiver : Option ValueId} {callee : MethodId}
    (hreceiver : ∀ v ∈ receiver, scene.Sure v)
    (hcallee : scene.Sure callee) :
    (t.addStatic stmt signature args target receiver caller callee).2.InRange scene k := by
  refine h.withSite (a := .static _) ⟨within_nextId _, hstmt, fun l hl x hx => ?_, htarget, hreceiver,
    hcaller, hcallee, nofun⟩
  exact (hargs l hl x hx).mono (widens_withSite _).within

theorem InRange.addDynamic (h : t.InRange scene k) {receiver : Option CallArg}
    {prototype : Option MethodId}
    (hreceiver : ∀ x ∈ receiver, x.Refs (scene.Within (t.sizes k)))
    (hprototype : ∀ m ∈ prototype, scene.Sure m) :
    (t.addDynamic stmt signature args target receiver caller prototype).2.InRange scene k := by
  refine h.withSite (a := .dynamic _) ⟨within_nextId _, hstmt, fun l hl x hx => ?_, htarget,
    fun x hx => ?_, hcaller, hprototype⟩
  · exact (hargs l hl x hx).mono (widens_withSite _).within
  · exact (hreceiver x hx).mono (widens_withSite _).within

end Add

theorem widens_resolve : t.Widens (t.resolve i m).2 := by
  unfold resolve
  split
  · exact Nat.le_refl _
  split
  · exact Nat.le_refl _
  · exact widens_withSite _

theorem InRange.resolve (h : t.InRange scene k) (hm : scene.Sure m) :
    (t.resolve i m).2.InRange scene k ∧
      ∀ j ∈ (t.resolve i m).1, j.index < (t.resolve i m).2.sites.size := by
  unfold SiteTable.resolve
  split
  · next j hj =>
    refine ⟨h, ?_⟩
    rintro _ ⟨⟩
    exact (h.resolutions i m j hj).2.2
  split
  · exact ⟨h, nofun⟩
  next a ha =>
  let b : CallSite := .static (a.resolved t.nextId m)
  have hi : scene.Within ((t.withSite b).sizes k) .site i :=
    (widens_withSite b).within _ _ (lt_size_of_dynamic? ha)
  have hnew : b.Refs (scene.Within ((t.withSite b).sizes k)) :=
    DynamicSite.Refs.resolved ((h.dynamic? ha).mono (widens_withSite b).within)
      (within_nextId _) hm
  have hrefs := h.withSite hnew
  refine ⟨{ hrefs with resolutions := fun i' m' => ?_ }, ?_⟩
  · refine forall_insert_map (R := fun (x : SiteId × MethodId) j => _)
      (fun x => hrefs.resolutions x.1 x.2) ?_ (i', m')
    exact ⟨hi, hm, within_nextId b⟩
  · rintro _ ⟨⟩
    simp [nextId]

end SiteTable

namespace CallGraph

/-- Every position that the call graph stores exists. -/
structure InRange (scene : Scene) (k : Table → Nat) (g : CallGraph) : Prop
    extends g.Coherent, g.Refs (scene.Within (g.sites.sizes k))

variable {scene : Scene} {k : Table → Nat} {g g' : CallGraph} {i : SiteId} {m caller callee : MethodId}

theorem inRange_empty : InRange scene k {} where
  toCoherent := coherent_empty
  toRefs := by
    constructor
    case sites => constructor <;> simp
    all_goals simp

theorem InRange.onSites (h : g.InRange scene k) {sites : SiteTable} (hw : g.sites.Widens sites)
    (hsites : sites.InRange scene k) : InRange scene k { g with sites } where
  toCoherent := h.toCoherent.sites sites g.stmtSites
  toRefs := { h.toRefs.mono hw.within with sites := hsites }

theorem InRange.touch (h : g.InRange scene k) (hm : scene.Sure m) :
    (g.touch m).2.InRange scene k := by
  refine ⟨h.toCoherent.touch, ?_⟩
  rw [sites_touch]
  unfold CallGraph.touch
  split
  · exact h.toRefs
  · exact { h.toRefs with
      nodes := Array.forall_mem_push.2 ⟨hm, h.nodes⟩
      nodeOf := forall_insert_map h.nodeOf hm
      reached := Array.forall_mem_push.2 ⟨hm, h.reached⟩ }

theorem InRange.addNode (h : g.InRange scene k) {kind : MethodKind}
    (hm : scene.Sure m) : (g.addNode m kind).2.InRange scene k := by
  have htouch := h.touch hm
  refine ⟨h.toCoherent.addNode, { htouch.toRefs with nodes := fun n hn => ?_ }⟩
  dsimp only [CallGraph.addNode] at hn
  rcases mem_modify hn with hn | ⟨n', hn', rfl⟩
  · exact htouch.nodes n hn
  · have hold := htouch.nodes n' hn'
    split <;> exact hold

theorem InRange.addEdge (h : g.InRange scene k) {type : CallType} (hi : i.index < g.sites.sites.size)
    (hcaller : scene.Sure caller)
    (hcallee : scene.Sure callee) :
    (g.addEdge i caller callee type).2.InRange scene k := by
  have htouch := (h.touch hcaller).touch hcallee
  have hsites : ((g.touch caller).2.touch callee).2.sites = g.sites := sites_touch.trans sites_touch
  have hsite : scene.Within (((g.touch caller).2.touch callee).2.sites.sizes k) .site i :=
    hsites ▸ hi
  refine ⟨h.toCoherent.addEdge, ?_⟩
  unfold CallGraph.addEdge
  dsimp only
  split
  · exact htouch.toRefs
  · exact { htouch.toRefs with
      edges := Array.forall_mem_push.2 ⟨hsite, htouch.edges⟩
      siteEdges := forall_insert_map htouch.siteEdges hsite }

/-- One site for each callee of a call. -/
theorem InRange.addSites (h : g.InRange scene k) {stmt : StmtId} (signature : Signature)
    {args : List CallArg} {target receiver : Option ValueId} (callees : List MethodId)
    (hstmt : scene.Sure stmt)
    (hargs : ∀ x ∈ args, x.Refs (scene.Within (g.sites.sizes k)))
    (htarget : ∀ v ∈ target, scene.Sure v)
    (hreceiver : ∀ v ∈ receiver, scene.Sure v)
    (hcaller : scene.Sure caller)
    (hcallees : ∀ m ∈ callees, scene.Sure m) :
    let r := g.addSites stmt signature args target receiver caller callees
    r.2.InRange scene k ∧ g.sites.Widens r.2.sites ∧ ∀ j ∈ r.1, j.index < r.2.sites.sites.size := by
  induction callees generalizing g with
  | nil => exact ⟨h, Nat.le_refl _, nofun⟩
  | cons callee rest ih =>
    let t := (g.sites.addStatic (some stmt) signature (some args) target receiver caller callee).2
    have hw : g.sites.Widens t := SiteTable.widens_withSite _
    have hsites : t.InRange scene k := SiteTable.InRange.addStatic
      (by rintro _ ⟨⟩; exact hstmt) (by rintro _ ⟨⟩; exact hargs) htarget hcaller h.sites hreceiver
      (hcallees callee (.head _))
    have hid : g.sites.nextId.index < t.sites.size := by simp [t, SiteTable.addStatic, SiteTable.nextId]
    obtain ⟨hrest, hw', hids⟩ := ih (h.onSites hw hsites) (fun x hx => (hargs x hx).mono hw.within)
      fun m hm => hcallees m (.tail _ hm)
    refine ⟨hrest, Nat.le_trans hw hw', List.forall_mem_cons.2 ⟨?_, hids⟩⟩
    exact Nat.lt_of_lt_of_le hid hw'

/-- The sites of a statement are remembered. -/
theorem InRange.insertSites (h : g.InRange scene k) {stmt : StmtId} {sites : List SiteId}
    (hstmt : scene.Sure stmt)
    (hsites : ∀ j ∈ sites, j.index < g.sites.sites.size) :
    InRange scene k { g with stmtSites := g.stmtSites.insert stmt sites } := by
  exact ⟨h.toCoherent.sites _ _,
    { h.toRefs with stmtSites := forall_insert_map h.stmtSites ⟨hstmt, hsites⟩ }⟩

theorem refs_callArgs {P : Positions} {value : Value} (h : ∀ v ∈ value.operands, P .value v) :
    ∀ x ∈ (value.callArgs?.getD []).map CallArg.value, x.Refs P := by
  intro x hx
  obtain ⟨v, hv, rfl⟩ := List.mem_map.1 hx
  refine h v ?_
  cases value with
  | instanceCall base target args => exact .tail _ hv
  | pointerCall pointer args => exact .tail _ hv
  | staticCall target args => exact hv
  | _ => cases hv

/-- The sites of a call statement. -/
theorem safe_resolveStmt (h : g.InRange scene k) {stmt : StmtId} {log : Array Notice}
    (hstmt : scene.Sure stmt)
    (hcaller : scene.Sure caller) :
    (Scan.guard scene).Safe log (g.resolveStmt scene stmt caller) fun _ r =>
      r.2.InRange scene k ∧ g.sites.Widens r.2.sites ∧
        ∀ j ∈ r.1, j.index < r.2.sites.sites.size := by
  unfold resolveStmt
  split
  · next sites hsites => exact .pure ⟨h, Nat.le_refl _, (h.stmtSites stmt sites hsites).2⟩
  refine Scan.safe_ask_bind (fun w => w.callExpr? (hstmt w)) fun expr? _ hexpr? => ?_
  cases expr? with
  | none => exact .pure ⟨h, Nat.le_refl _, nofun⟩
  | some expr =>
    refine Scan.safe_ask_bind (fun w => w.stmt (hstmt w)) fun i _ hi => ?_
    refine Scan.safe_ask_bind (fun w => w.value (hexpr? w expr rfl)) fun value _ hvalue => ?_
    have htarget : ∀ v ∈ i.target?, scene.Sure v :=
      fun v hv w => (hi w).target? v hv
    have hargs := refs_callArgs (P := scene.Within (g.sites.sizes k))
      fun v hv w => (hvalue w).operands v hv
    cases value with
    | staticCall signature vs =>
      have hcallees : ∀ m ∈ (scene.methodOf? signature).toList,
          scene.Sure m := fun m hm w => w.methodOf? (by simpa using hm)
      have hnone : ∀ v ∈ (none : Option ValueId), scene.Sure v := nofun
      obtain ⟨hr, hw, hids⟩ := h.addSites signature _ hstmt hargs htarget hnone hcaller hcallees
      exact .pure ⟨hr.insertSites hstmt hids, hw, hids⟩
    | instanceCall base signature vs =>
      refine .bind Scene.safe_hierarchyTargets fun _ callees _ hcallees => ?_
      have hbase : ∀ v ∈ some base, scene.Sure v := by
        rintro _ ⟨⟩ w
        exact (hvalue w).operands base (.head _)
      obtain ⟨hr, hw, hids⟩ := h.addSites signature callees hstmt hargs htarget hbase hcaller
        fun m hm w => hcallees w m hm
      exact .pure ⟨hr.insertSites hstmt hids, hw, hids⟩
    | _ => exact .pure ⟨h, Nat.le_refl _, nofun⟩

end CallGraph

end PointsTo
