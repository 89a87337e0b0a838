import PointsTo.Proofs.Call.Sites

/-! What a survey finds out about a method does not depend on the calls that are known before it. -/
namespace PointsTo

namespace Scene

variable {α : Type} (scene : Scene) {contents : List StaticSite}

theorem agrees_ask (x : Except Fault α) :
    Agrees (fun _ _ => True) (liftM x : Scan α) (liftM x : Scan α) := by
  intro log log' _
  cases x with
  | error f => exact .inr ⟨f, log, log', rfl, rfl⟩
  | ok a => exact .inl ⟨a, log, log', rfl, rfl, trivial⟩

theorem agrees_note (n : Notice) : Agrees (fun _ _ => True) (Scan.note n) (Scan.note n) :=
  fun _ _ _ => .inl ⟨(), _, _, rfl, rfl, trivial⟩

/-- Notices have no influence on the method that an object has. -/
theorem agrees_dispatch (c : ClassId) (name : String) :
    Agrees (fun _ _ => True) (scene.dispatch c name) (scene.dispatch c name) := by
  refine .bind (.bind (agrees_ask _) fun a => ?_) fun _ => agrees_ask _
  split
  · exact .bind (agrees_note _) fun _ => .pure _
  · exact .pure _

theorem agrees_hierarchyTargets (signature : Signature) :
    Agrees (fun _ _ => True) (scene.hierarchyTargets signature)
      (scene.hierarchyTargets signature) := by
  unfold hierarchyTargets
  split
  · exact .pure []
  split
  · exact .pure []
  refine .bind (agrees_dispatch scene _ _) fun own => ?_
  split
  · exact .pure _
  refine .bind (agrees_ask _) fun below => ?_
  refine .bind (.filterM _ fun m => .bind (agrees_ask _) fun decl => .pure _) fun concrete => ?_
  split <;> exact .pure _

theorem agrees_resolveLocal (m : MethodId) (v : ValueId) :
    Agrees (fun _ _ => True) (scene.resolveLocal m v) (scene.resolveLocal m v) := by
  refine .bind (agrees_ask _) fun found => ?_
  split
  · exact .pure _
  · exact .bind (agrees_note _) fun _ => .pure _
  · exact .bind (agrees_note _) fun _ => .pure _
  · exact .pure _

theorem agrees_staticSites (stmt : StmtId) :
    Agrees (fun _ _ => True) (scene.staticSites stmt) (scene.staticSites stmt) := by
  refine .bind (agrees_ask _) fun expr? => ?_
  split
  · exact .pure []
  refine .bind (agrees_ask _) fun decl => .bind (agrees_ask _) fun value => ?_
  cases value with
  | instanceCall base signature args =>
    exact .bind (agrees_hierarchyTargets scene signature) fun _ => .pure _
  | _ => exact .pure _

/-- A statement has one list of call sites. -/
theorem Resolves.unique {scene : Scene} {stmt : StmtId} {contents' : List StaticSite}
    (h : scene.Resolves stmt contents) (h' : scene.Resolves stmt contents') :
    contents = contents' := by
  obtain ⟨log, _, hrun⟩ := h
  obtain ⟨log', _, hrun'⟩ := h'
  obtain ⟨t, ht⟩ := ((agrees_staticSites scene stmt).answers_iff trivial).1 ⟨_, hrun'⟩
  cases hrun.symm.trans ht
  rfl

/-- The sites of a statement bear its number, resolve no other site and take values as arguments. -/
theorem Resolves.plain {scene : Scene} {stmt : StmtId} (h : scene.Resolves stmt contents)
    {a : StaticSite} (ha : a ∈ contents) : a.stmt = some stmt ∧ a.IsPlain := by
  obtain ⟨log, log', hrun⟩ := h
  obtain ⟨expr?, log₁, -, hrun⟩ := bind_eq_ok.1 hrun
  cases expr? with
  | none =>
    cases hrun
    cases ha
  | some expr =>
    obtain ⟨decl, log₂, -, hrun⟩ := bind_eq_ok.1 hrun
    obtain ⟨value, log₃, -, hrun⟩ := bind_eq_ok.1 hrun
    cases value with
    | staticCall signature args =>
      cases hrun
      obtain ⟨callee, -, rfl⟩ := List.mem_map.1 ha
      exact ⟨rfl, rfl, args, rfl⟩
    | instanceCall base signature args =>
      obtain ⟨callees, log₄, -, hrun⟩ := bind_eq_ok.1 hrun
      cases hrun
      obtain ⟨callee, -, rfl⟩ := List.mem_map.1 ha
      exact ⟨rfl, rfl, args, rfl⟩
    | _ =>
      cases hrun
      cases ha

end Scene

/-- A summary without its calls. -/
def Summary.bare (s : Summary) : Summary :=
  { s with staticCalls := #[], dynamicCalls := #[], unknownCalls := #[] }

/-- The calls that wait for the objects of their receiver. -/
def Summary.Waits (s : Summary) (i : SiteId) : Prop := i ∈ s.dynamicCalls ∨ i ∈ s.unknownCalls

namespace Survey

/-- A call that `v` takes for resolved is one of the calls of its statement in `v'`. -/
def Resolved (v v' : Survey) (i : SiteId) : Prop :=
  ∃ a stmt sites, v.calls.sites.static? i = some a ∧ a.stmt = some stmt ∧ a.IsPlain ∧
    v'.calls.stmtSites[stmt]? = some sites ∧ (∀ j ∈ sites, j ∈ v'.summary.staticCalls) ∧
    some a.content ∈ sites.map v'.calls.content?

/-- A call of `m` that waits for objects in `v` also waits for them in `v'`. -/
def Expected (m : MethodId) (v v' : Survey) (i : SiteId) : Prop :=
  ∃ a j, v.calls.sites.dynamic? i = some a ∧ a.IsPlain m ∧ v'.summary.Waits j ∧
    v'.calls.sites.dynamic? j = some { a with id := j }

/-- Two surveys have found out the same about `m`, where the calls of the first one are among those
of the second one. -/
structure Alike (scene : Scene) (m : MethodId) (v v' : Survey) : Prop where
  summary : v.summary.bare = v'.summary.bare
  captures : v.captures = v'.captures
  firsts : v.firsts = v'.firsts
  static : ∀ i ∈ v.summary.staticCalls, v.Resolved v' i
  waiting : ∀ i, v.summary.Waits i → v.Expected m v' i
  listed : v.calls.Listed scene
  listed' : v'.calls.Listed scene

variable {scene : Scene} {m : MethodId} {v v' t t' : Survey} {i : SiteId}

theorem Resolved.mono (h : v.Resolved v' i) (hv : v.calls.sites.Grows t.calls.sites)
    (hv' : v'.calls.Grows scene t'.calls)
    (hstatic : ∀ j ∈ v'.summary.staticCalls, j ∈ t'.summary.staticCalls) : t.Resolved t' i := by
  obtain ⟨a, stmt, sites, ha, hstmt, hplain, hsites, hall, hmem⟩ := h
  refine ⟨a, stmt, sites, hv.static? ha, hstmt, hplain, hv'.stmts _ _ hsites,
    fun j hj => hstatic j (hall j hj), ?_⟩
  obtain ⟨j, hj, hcontent⟩ := List.mem_map.1 hmem
  exact List.mem_map.2 ⟨j, hj, CallGraph.content?_mono hv'.sites hcontent⟩

theorem Expected.mono (h : v.Expected m v' i) (hv : v.calls.sites.Grows t.calls.sites)
    (hv' : v'.calls.sites.Grows t'.calls.sites)
    (hwaits : ∀ j, v'.summary.Waits j → t'.summary.Waits j) : t.Expected m t' i := by
  obtain ⟨a, j, ha, hplain, hj, ha'⟩ := h
  exact ⟨a, j, hv.dynamic? ha, hplain, hwaits j hj, hv'.dynamic? ha'⟩

/-- Surveys stay alike while calls are added that correspond to each other. -/
theorem Alike.calls (h : Alike scene m v v') (hv : v.calls.Grows scene t.calls)
    (hv' : v'.calls.Grows scene t'.calls) (hsummary : t.summary.bare = t'.summary.bare)
    (hcaptures : t.captures = t'.captures) (hfirsts : t.firsts = t'.firsts)
    (hstatic : ∀ i ∈ t.summary.staticCalls, i ∈ v.summary.staticCalls ∨ t.Resolved t' i)
    (hstatic' : ∀ j ∈ v'.summary.staticCalls, j ∈ t'.summary.staticCalls)
    (hwaits : ∀ i, t.summary.Waits i → v.summary.Waits i ∨ t.Expected m t' i)
    (hwaits' : ∀ j, v'.summary.Waits j → t'.summary.Waits j) : Alike scene m t t' where
  summary := hsummary
  captures := hcaptures
  firsts := hfirsts
  static i hi := (hstatic i hi).elim (fun hi => (h.static i hi).mono hv.sites hv' hstatic') id
  waiting i hi :=
    (hwaits i hi).elim (fun hi => (h.waiting i hi).mono hv.sites hv'.sites hwaits') id
  listed := hv.listed h.listed
  listed' := hv'.listed h.listed'

end Survey

namespace Surveying

open Survey

variable {scene : Scene} {m : MethodId} {stmt : StmtId} {signature : Signature}
  {args : List ValueId} {receiver v : ValueId} {prototype : Option MethodId}
  {explains writes : Bool}

/-- A part of a survey of `m` that finds out the same whatever calls are known before it. -/
abbrev Determined {α : Type} (scene : Scene) (m : MethodId) (q : Surveying α) : Prop :=
  Concurs (Alike scene m) q

theorem determined_scan {α : Type} {q : Scan α} (h : Agrees (fun _ _ => True) q q) :
    Determined scene m (scan q) := by
  intro v v' hv a t a' t' hrun hrun'
  unfold scan at hrun hrun'
  cases hq : q v.log with
  | error => simp [hq] at hrun
  | ok b log =>
    cases hq' : q v'.log with
    | error => simp [hq'] at hrun'
    | ok b' log' =>
      simp only [hq, EStateM.Result.ok.injEq] at hrun
      simp only [hq', EStateM.Result.ok.injEq] at hrun'
      obtain ⟨rfl, rfl⟩ := hrun
      obtain ⟨rfl, rfl⟩ := hrun'
      obtain ⟨log₂, hsame⟩ := (h.answers_iff trivial).1 ⟨_, hq'⟩
      cases hq.symm.trans hsame
      exact ⟨rfl, { hv with }⟩

theorem determined_lift {α : Type} (x : Except Fault α) :
    Determined scene m (liftM x : Surveying α) :=
  determined_scan (Scene.agrees_ask x)

theorem determined_modifySummary {f : Summary → Summary} (hbare : ∀ s, (f s).bare = f s.bare)
    (hstatic : ∀ s, (f s).staticCalls = s.staticCalls) (hwaits : ∀ s i, (f s).Waits i ↔ s.Waits i) :
    Determined scene m (modifySummary f) := by
  refine .modify fun v v' hv => hv.calls (.refl _) (.refl _) ?_ hv.captures hv.firsts ?_ ?_ ?_ ?_
  · exact (hbare _).trans ((congrArg f hv.summary).trans (hbare _).symm)
  · exact fun i hi => .inl (hstatic v.summary ▸ hi)
  · exact fun j hj => (hstatic v'.summary).symm ▸ hj
  · exact fun i hi => .inl ((hwaits _ i).1 hi)
  · exact fun j hj => (hwaits _ j).2 hj

theorem determined_capture : Determined scene m (capture scene m v writes) := by
  refine .bind (determined_lift _) fun value => ?_
  split
  · exact .pure ()
  refine .bind (determined_lift _) fun declared => ?_
  split
  · exact .pure ()
  split
  · exact .pure ()
  refine .bind (determined_scan (Scene.agrees_resolveLocal scene m v)) fun found => ?_
  split
  · exact .modify fun v v' hv => { hv with captures := by rw [hv.captures] }
  · refine .bind (determined_lift _) fun name => ?_
    exact .bind (determined_lift _) fun decl => determined_scan (Scene.agrees_note _)

theorem determined_first {p : Place} {u : ValueId} : Determined scene m (first p u) := by
  refine .modifyGet fun v v' hv => ⟨by rw [hv.firsts], ?_⟩
  refine hv.calls (.refl _) (.refl _) ?_ hv.captures (by rw [hv.firsts]) (fun i hi => .inl hi)
    (fun j hj => hj) (fun i hi => .inl hi) fun j hj => hj
  rw [← hv.firsts]
  exact congrArg (fun s : Summary =>
    { s with statics := s.statics.insert ((v.firsts.lookup p).getD u) }) hv.summary

theorem determined_operand : Determined scene m (operand scene m v writes) := by
  refine .bind (determined_lift _) fun value => ?_
  split
  · exact .bind determined_capture fun _ => .pure v
  · refine .bind determined_capture fun _ => .bind (determined_lift _) fun place? => ?_
    split
    · split
      · exact determined_first
      · exact .pure v
    · exact .pure v
  · exact .bind determined_capture fun _ => .pure v
  · exact determined_first
  · exact .pure v

/-- Two sites that are added for one call differ in their numbers only. -/
theorem expected_addDynamic {t t' : SiteTable} {v v' : Survey} {target : Option ValueId}
    (hv : v.calls.sites = (t.addDynamic (some stmt) signature (some (args.map .value)) target
      (some (.value receiver)) m prototype).2)
    (hv' : v'.calls.sites = (t'.addDynamic (some stmt) signature (some (args.map .value)) target
      (some (.value receiver)) m prototype).2) (hwaits : v'.summary.Waits t'.nextId) :
    v.Expected m v' t.nextId := by
  refine ⟨⟨t.nextId, some stmt, signature, some (args.map .value), target, some (.value receiver), m,
    prototype⟩, t'.nextId, ?_, ⟨rfl, ⟨receiver, rfl⟩, args, rfl⟩, hwaits, ?_⟩
  · rw [hv]
    exact SiteTable.dynamic?_addDynamic
  · rw [hv']
    exact SiteTable.dynamic?_addDynamic

/-- A call that waits for objects is filed under the same kind of calls. -/
theorem determined_addDynamicCall :
    Determined scene m (addDynamicCall scene m stmt signature receiver args prototype) := by
  refine .bind (determined_lift _) fun decl v v' hv a t a' t' hrun hrun' => ?_
  have hgrows (w : Survey) : w.calls.Grows scene { w.calls with
      sites := (w.calls.sites.addDynamic (some stmt) signature (some (args.map .value))
        decl.target? (some (.value receiver)) m prototype).2 } :=
    CallGraph.grows_sites SiteTable.addDynamic_grows
  obtain ⟨i, v₁, hi, hrun⟩ := bind_eq_ok.1 hrun
  obtain ⟨i', v₁', hi', hrun'⟩ := bind_eq_ok.1 hrun'
  cases hi
  cases hi'
  split at hrun
  · rw [if_pos ‹_›] at hrun'
    cases hrun
    cases hrun'
    refine ⟨rfl, hv.calls (hgrows v) (hgrows v') hv.summary hv.captures hv.firsts
      (fun i hi => .inl hi) (fun j hj => hj) ?_ ?_⟩
    · rintro i (hi | hi)
      · exact .inl (.inl hi)
      · rcases Array.mem_push.1 hi with hi | rfl
        · exact .inl (.inr hi)
        · exact .inr (expected_addDynamic rfl rfl (.inr Array.mem_push_self))
    · exact fun j hj => hj.imp_right fun hj => Array.mem_push.2 (.inl hj)
  · rw [if_neg ‹_›] at hrun'
    cases hrun
    cases hrun'
    refine ⟨rfl, hv.calls (hgrows v) (hgrows v') hv.summary hv.captures hv.firsts
      (fun i hi => .inl hi) (fun j hj => hj) ?_ ?_⟩
    · rintro i (hi | hi)
      · rcases Array.mem_push.1 hi with hi | rfl
        · exact .inl (.inl hi)
        · exact .inr (expected_addDynamic rfl rfl (.inl Array.mem_push_self))
      · exact .inl (.inr hi)
    · exact fun j hj => hj.imp_left fun hj => Array.mem_push.2 (.inl hj)

/-- The sites of a statement are filed under the resolved calls in both surveys. -/
theorem alike_resolved {v v' : Survey} {sites sites' : List SiteId} {contents : List StaticSite}
    (hv : Alike scene m v v') (hc : scene.Resolves stmt contents)
    (hmap : sites.map v.calls.content? = contents.map some)
    (hmap' : sites'.map v'.calls.content? = contents.map some)
    (hkept : v'.calls.stmtSites[stmt]? = some sites') : Alike scene m
      { v with summary := { v.summary with staticCalls := v.summary.staticCalls ++ sites.toArray } }
      { v' with
        summary := { v'.summary with staticCalls := v'.summary.staticCalls ++ sites'.toArray } } := by
  refine hv.calls (.refl _) (.refl _) hv.summary hv.captures hv.firsts ?_
    (fun j hj => Array.mem_append.2 (.inl hj)) (fun i hi => .inl hi) fun j hj => hj
  intro i hi
  rcases Array.mem_append.1 hi with hi | hi
  · exact .inl hi
  · have hmem : v.calls.content? i ∈ contents.map some :=
      hmap ▸ List.mem_map_of_mem (List.mem_toArray.1 hi)
    obtain ⟨content, hcontent, hsome⟩ := List.mem_map.1 hmem
    obtain ⟨a, ha, rfl⟩ := Option.map_eq_some_iff.1 hsome.symm
    obtain ⟨hstmt, hplain⟩ := hc.plain hcontent
    refine .inr ⟨a, stmt, sites', ha, hstmt, hplain, hkept, ?_, hmap' ▸ hsome ▸ hmem⟩
    exact fun j hj => Array.mem_append.2 (.inr (List.mem_toArray.2 hj))

/-- The sites of a statement are the same up to their numbers. -/
theorem determined_resolve {rest : Surveying Unit} (hstmt : scene.HasStmt m stmt)
    (hrest : Determined scene m rest) : Determined scene m (do
      let calls := (← get).calls
      let (sites, calls) ← scan (calls.resolveStmt scene stmt m)
      modify fun s => { s with calls }
      if !sites.isEmpty then
        modifySummary fun s => { s with staticCalls := s.staticCalls ++ sites.toArray }
        return
      rest) := by
  intro v v' hv a t a' t' hrun hrun'
  obtain ⟨_, _, hget, hrun⟩ := bind_eq_ok.1 hrun
  obtain ⟨_, _, hget', hrun'⟩ := bind_eq_ok.1 hrun'
  cases hget
  cases hget'
  obtain ⟨⟨sites, calls⟩, v₁, hsites, hrun⟩ := bind_eq_ok.1 hrun
  obtain ⟨⟨sites', calls'⟩, v₁', hsites', hrun'⟩ := bind_eq_ok.1 hrun'
  obtain ⟨⟨hgrows, ⟨contents, hc, hmap⟩, hkept, -⟩, log, rfl⟩ :=
    (ensures_scan (CallGraph.ensures_resolveStmt hv.listed hstmt)).1 hsites
  obtain ⟨⟨hgrows', ⟨contents', hc', hmap'⟩, hkept', -⟩, log', rfl⟩ :=
    (ensures_scan (CallGraph.ensures_resolveStmt hv.listed' hstmt)).1 hsites'
  cases hc.unique hc'
  obtain ⟨_, _, hset, hrun⟩ := bind_eq_ok.1 hrun
  obtain ⟨_, _, hset', hrun'⟩ := bind_eq_ok.1 hrun'
  cases hset
  cases hset'
  have hv₁ : Alike scene m { v with log, calls } { v' with log := log', calls := calls' } :=
    hv.calls hgrows hgrows' hv.summary hv.captures hv.firsts (fun i hi => .inl hi) (fun j hj => hj)
      (fun i hi => .inl hi) fun j hj => hj
  have hlength : sites.length = sites'.length := by
    simpa using congrArg List.length (hmap.trans hmap'.symm)
  cases sites with
  | nil =>
    cases List.length_eq_zero_iff.1 hlength.symm
    exact hrest _ _ hv₁ hrun hrun'
  | cons i sites =>
    have hne : sites' ≠ [] := by
      rintro rfl
      simp at hlength
    rw [if_pos (by simpa using hne)] at hrun'
    cases hrun
    cases hrun'
    exact ⟨rfl, alike_resolved hv₁ hc hmap hmap' (hkept' hne)⟩

theorem determined_call {expr : ValueId} (hstmt : scene.HasStmt m stmt) :
    Determined scene m (call scene m stmt expr) := by
  refine .bind (determined_lift _) fun value => ?_
  refine .bind (.forM fun v _ => .discard determined_operand) fun _ => determined_resolve hstmt ?_
  split
  · exact determined_addDynamicCall
  · exact determined_addDynamicCall
  · exact .bind (determined_lift _) fun decl => determined_scan (Scene.agrees_note _)
  · exact .pure ()

theorem determined_assign {target source : ValueId} (hstmt : scene.HasStmt m stmt) :
    Determined scene m (assign scene explains m stmt target source) := by
  refine .bind (determined_lift _) fun value => ?_
  split
  · exact .pure ()
  · exact .pure ()
  split
  · exact .bind determined_operand fun _ => determined_call hstmt
  refine .bind determined_operand fun target => ?_
  split
  · refine .bind (determined_lift _) fun decl => ?_
    split
    · exact determined_lift _
    refine .bind (determined_lift _) fun heap => ?_
    split <;> exact determined_modifySummary (fun _ => rfl) (fun _ => rfl) fun _ _ => .rfl
  split
  · refine .bind determined_operand fun source => .bind (determined_lift _) fun intoHeap => ?_
    refine .bind (determined_lift _) fun fromHeap => ?_
    split
    · exact determined_modifySummary (fun _ => rfl) (fun _ => rfl) fun _ _ => .rfl
    · exact determined_lift _
  · exact .pure ()

theorem determined_statement {i : StmtId} (hi : scene.HasStmt m i) :
    Determined scene m (statement scene explains m i) := by
  refine .bind (determined_lift _) fun decl => ?_
  split
  · exact determined_assign hi
  · exact determined_call hi
  · refine .bind determined_operand fun v => ?_
    exact determined_modifySummary (fun _ => rfl) (fun _ => rfl) fun _ _ => .rfl
  · exact .pure ()
  · exact .pure ()

theorem determined_body : Determined scene m (body scene explains m) := by
  intro v v' hv a t a' t' hrun hrun'
  obtain ⟨decl, v₁, hdecl, hrun⟩ := bind_eq_ok.1 hrun
  obtain ⟨decl', v₁', hdecl', hrun'⟩ := bind_eq_ok.1 hrun'
  obtain ⟨rfl, hv₁⟩ := determined_lift _ v v' hv hdecl hdecl'
  have hstmt : ∀ i ∈ decl.stmts, scene.HasStmt m i := fun i hi => ⟨decl, eq_ok_of_lift hdecl, hi⟩
  exact Concurs.forM (fun i hi => determined_statement (hstmt i hi)) v₁ v₁' hv₁ hrun hrun'

end Surveying

/-- Two surveys of a method find out the same. -/
theorem Survey.alike_of_ofMethod {scene : Scene} {explains : Bool} {m : MethodId}
    {calls calls' : CallGraph} {log log' : Array Notice} {v v' : Survey}
    (hcalls : calls.Listed scene) (hcalls' : calls'.Listed scene)
    (h : ofMethod scene explains m calls log = .ok () v)
    (h' : ofMethod scene explains m calls' log' = .ok () v') : v.Alike scene m v' := by
  have hstart : Alike scene m { summary := { method := m }, calls, log }
      { summary := { method := m }, calls := calls', log := log' } := by
    refine ⟨rfl, rfl, rfl, ?_, ?_, hcalls, hcalls'⟩
    · exact fun i hi => absurd hi (Array.not_mem_empty i)
    · exact fun i hi => (hi.elim (Array.not_mem_empty i) (Array.not_mem_empty i)).elim
  exact (Surveying.determined_body _ _ hstart h h').2

end PointsTo
