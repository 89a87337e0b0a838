import PointsTo.Proofs.Analysis.Expand
import PointsTo.Proofs.Analysis.SafeCalls

/-! The parts of a round take nothing away, and they come upon nothing that does not exist: methods
are put into the graph, the graph is solved, and calls are dispatched. -/
namespace PointsTo.Run
open State

variable {p : Problem} {w : Watch} {s : State} {c : ContextId} {m : MethodId} {i : SiteId}

section Instances

variable (hc : p.Sees w s .context c)
include hc

theorem watch_instantiateEdge {e : LocalEdge}
    (hsource : e.kind = .address → (Location.value e.source).IsObject p.scene)
    (he : w.Strict → e.Refs (p.Within s)) : (watch p w).Runs s (instantiateEdge p c e) := by
  have hstmt : ∀ j ∈ some e.stmt, p.Sees w s .stmt j := by
    rintro _ ⟨⟩ h
    exact (he h).stmt
  refine .bind (watch_value hc (fun h => (he h).source) hstmt) fun s₁ source hl hs₁ => ?_
  refine .bind (watch_value (sees_later hl hc) (fun h => (he h).target) hstmt)
    fun s₂ target hl' hs₂ => ?_
  split
  · next hkind =>
    exact watch_address (hl'.1.isObject (hs₁.1 (hsource hkind))) (sees_later hl' hs₁.2) hs₂.2 hstmt
  · next hkind => exact .discard (watch_flow hkind (sees_later hl' hs₁.2) hs₂.2 hstmt)

theorem watch_instantiateAllocation {a : FieldAllocation}
    (hobject : (Location.value a.object).IsObject p.scene)
    (ha : w.Strict → a.Refs (p.Within s)) : (watch p w).Runs s (instantiateAllocation p c a) := by
  have hstmt : ∀ j ∈ some a.stmt, p.Sees w s .stmt j := by
    rintro _ ⟨⟩ h
    exact (ha h).stmt
  refine .bind (watch_value hc (fun h => (ha h).object) hstmt) fun s₁ object hl₁ hs₁ => ?_
  have hc := sees_later hl₁ hc
  refine .bind (watch_value hc (fun h => (ha h).field) hstmt) fun s₂ field hl₂ hs₂ => ?_
  refine .bind (watch_grow_node (Growing.watch_temporary (sees_later hl₂ hc) fun h => (ha h).stmt))
    fun s₃ temporary hl₃ htemporary => ?_
  have hl := (watch p w).trans hl₂ hl₃
  refine .next (watch_address (hl.1.isObject (hs₁.1 hobject)) (sees_later hl hs₁.2) htemporary
    hstmt) fun s₄ _ hl₄ => ?_
  have hfield := sees_later ((watch p w).trans hl₃ hl₄) hs₂.2
  refine .next (watch_addEdge nofun (sees_later hl₄ htemporary) hfield hstmt) fun s₅ new hl₅ => ?_
  split
  · exact watch_wakeBase (sees_later hl₅ hfield)
  · exact .pure trivial

theorem watch_fabricate {object : Synthetic} {owner : String} {v : ValueId}
    (hobject : ∀ i, object ≠ .containerCopy i) (ho : w.Strict → object.Refs (p.Within s))
    (hv : p.Sees w s .value v) : (watch p w).Runs s (fabricate p c object owner v) := by
  refine .bind (watch_grow_object (Growing.watch_synthetic (fun i hi => absurd hi (hobject i)) hc
    fun h => ?_)) fun s₁ o hl hobject => ?_
  · rw [sizes_graph]
    exact ho h
  refine .bind (watch_value (sees_later hl hc) hv nofun) fun s₂ target hl' htarget => ?_
  exact watch_address (hl'.1.isObject hobject.1) (sees_later hl' hobject.2) htarget.2 nofun

theorem watch_fabricateFormals (hm : p.Sees w s .method m) :
    (watch p w).Runs s (fabricateFormals p m c) := by
  refine watch_lift_bind (fun h hp => hp.method (hm h hp)) fun decl _ _ => ?_
  refine watch_lift_bind (fun h hp => hp.parameterLocals (hm h hp)) fun formals _ hformals => ?_
  refine .next (.forM fun t x hl hx => ?_) fun s₁ _ hl => ?_
  · obtain ⟨formal, index⟩ := x
    have hmem := List.fst_mem_of_mem_zipIdx hx
    dsimp only
    split
    · exact watch_fabricate (sees_later hl hc) nofun hm fun h hp => hformals h hp _ hmem
    · exact .pure trivial
  split
  · refine watch_lift_bind (fun h hp => hp.receiverLocal? (hm h hp)) fun v? _ hv? => ?_
    split
    · refine watch_lift_bind (fun h hp => hp.classOfMethod (hm h hp)) fun owner _ _ => ?_
      exact watch_fabricate (sees_later hl hc) nofun hm fun h hp => hv? h hp _ rfl
    · exact .pure trivial
  · exact .pure trivial

theorem watch_attachInstance {site : StaticSite} (hsite : site.Refs (p.Sees w s)) :
    (watch p w).Runs s (attachInstance p site c) := by
  unfold attachInstance
  split
  · exact .pure trivial
  refine watch_lift_bind (fun h hp => hp.method (hsite.callee h hp)) fun decl _ _ => ?_
  split
  · exact .pure trivial
  split
  · exact .pure trivial
  · next v hv =>
    refine .bind (watch_value hc (hsite.receiver v hv) hsite.stmt) fun s₁ n hl hn => ?_
    refine watch_node_bind hn.2 fun a _ _ => ?_
    split
    · exact .pure trivial
    refine .next (watch_mapPointer (fun info => ?_) fun h info hinfo => ?_) fun s₂ _ hl' => ?_
    · exact ⟨List.Subset.refl _, List.Subset.refl _, List.subset_append_left ..⟩
    · refine { hinfo with instanceCalls := List.forall_mem_append.2 ⟨hinfo.instanceCalls, ?_⟩ }
      simpa using ⟨sees_later hl hsite.id h, sees_later hl hc h⟩
    · exact .last (watch_wake (sees_later hl' hn.2))

theorem watch_instantiateCall : (watch p w).Runs s (instantiateCall p c i) := by
  refine .get_bind (.of_holds fun hs => ?_)
  split
  · exact .pure trivial
  · next site hsite =>
    have hsite : site.Refs (p.Sees w s) := .when fun h => (hs.2 h).calls.sites.static? hsite
    refine .next (.discard (watch_callEdge hsite.id hsite.caller hsite.callee)) fun s₁ _ hl => ?_
    have hsite := hsite.mono fun _ _ => sees_later hl
    have hc := sees_later hl hc
    refine .next (watch_attachInstance hc hsite) fun s₂ attached hl' => ?_
    split
    · exact .discard (watch_call (hsite.mono fun _ _ => sees_later hl') (sees_later hl' hc) nofun)
    · exact .pure trivial

theorem watch_dynamicReceiver :
    (watch p w).Safe s (dynamicReceiver p i c) fun t n? => ∀ n ∈ n?, p.Sees w t .node n := by
  refine .get_bind (.of_holds fun hs => ?_)
  split
  · exact .pure nofun
  · next site hsite =>
    have hsite : site.Refs (p.Sees w s) := .when fun h => (hs.2 h).calls.sites.dynamic? hsite
    split
    · next v hv =>
      refine .bind (watch_value hc (hsite.receiver _ hv) hsite.stmt) fun t n _ hn => .pure ?_
      rintro _ ⟨⟩
      exact hn.2
    · next n hn =>
      refine .pure ?_
      rintro _ ⟨⟩
      exact hsite.receiver _ hn
    · exact .next (watch_note nofun) fun _ _ _ => .pure nofun

theorem watch_attach {f : PointerInfo → PointerInfo}
    (hf : ∀ i : PointerInfo, i.dynamicCalls ⊆ (f i).dynamicCalls ∧
      i.unknownCalls ⊆ (f i).unknownCalls ∧ i.instanceCalls ⊆ (f i).instanceCalls)
    (hf' : ∀ t : State, (watch p w).Later s t → w.Strict → ∀ info : PointerInfo,
      info.Refs (p.Within t) → (f info).Refs (p.Within t)) :
    (watch p w).Runs s (attach p i c f) := by
  refine .bind (watch_dynamicReceiver hc) fun s₁ n? hl hn? => ?_
  cases n? with
  | none => exact .pure trivial
  | some n =>
    have hn := hn? n rfl
    refine watch_node_bind hn fun a _ _ => ?_
    split
    · exact .next (watch_mapPointer hf (hf' s₁ hl)) fun s₂ _ hl' =>
        (watch_wake (sees_later hl' hn)).runs
    · exact Guard.Safe.runs (watch_note nofun)

theorem watch_attachDynamic (hi : p.Sees w s .site i) :
    (watch p w).Runs s (attachDynamic p i c) := by
  refine watch_attach hc (fun info => ?_) fun t hl h info hinfo => ?_
  · exact ⟨List.subset_append_left .., List.Subset.refl _, List.Subset.refl _⟩
  · refine { hinfo with dynamicCalls := List.forall_mem_append.2 ⟨hinfo.dynamicCalls, ?_⟩ }
    simpa using ⟨sees_later hl hi h, sees_later hl hc h⟩

theorem watch_attachUnknown (hi : p.Sees w s .site i) :
    (watch p w).Runs s (attachUnknown p i c) := by
  refine watch_attach hc (fun info => ?_) fun t hl h info hinfo => ?_
  · exact ⟨List.Subset.refl _, List.subset_append_left .., List.Subset.refl _⟩
  · refine { hinfo with unknownCalls := List.forall_mem_append.2 ⟨hinfo.unknownCalls, ?_⟩ }
    simpa using ⟨sees_later hl hi h, sees_later hl hc h⟩

/-- A summary is put into the graph, part by part. -/
theorem watch_instantiate (hm : p.Sees w s .method m) :
    (watch p w).Runs s (instantiate p m c) := by
  refine .get_bind (.of_holds fun hs => ?_)
  split
  · exact .pure trivial
  next summary hsummary =>
  have hordered := hs.1.summaries m summary hsummary
  have hrefs := fun h => ((hs.2 h).summaries m summary hsummary).2
  refine .next (watch_reach hm) fun s₁ _ hl₁ => ?_
  refine .next (.forM fun t e hl he => ?_) fun s₂ _ hl₂ => ?_
  · have he := Array.mem_toList_iff.1 he
    refine watch_instantiateEdge (sees_later ((watch p w).trans hl₁ hl) hc) (hordered.edges e he)
      fun h => ?_
    have he := (hrefs h).edges e he
    exact ⟨he.source, he.target, he.stmt⟩
  have hl₂ := (watch p w).trans hl₁ hl₂
  refine .next (.forM fun t a hl ha => ?_) fun s₃ _ hl₃ => ?_
  · have ha := Array.mem_toList_iff.1 ha
    refine watch_instantiateAllocation (sees_later ((watch p w).trans hl₂ hl) hc)
      (hordered.fieldAllocations a ha) fun h => ?_
    have ha := (hrefs h).fieldAllocations a ha
    exact ⟨ha.object, ha.field, ha.stmt⟩
  have hl₃ := (watch p w).trans hl₂ hl₃
  extract_lets finish
  have hfinish : ∀ t : State, (watch p w).Later s t → (watch p w).Runs t (finish ()) := by
    intro t hlt
    refine .next (.forM fun u j hl hj => ?_) fun t₁ _ hl₁ => ?_
    · exact watch_instantiateCall (sees_later ((watch p w).trans hlt hl) hc)
    have hl₁ := (watch p w).trans hlt hl₁
    refine .next (.forM fun u j hl hj => ?_) fun t₂ _ hl₂ => ?_
    · have hl := (watch p w).trans hl₁ hl
      exact watch_attachDynamic (sees_later hl hc)
        (sees_later hl fun h => (hrefs h).dynamicCalls j (Array.mem_toList_iff.1 hj))
    have hl₂ := (watch p w).trans hl₁ hl₂
    refine .next (.forM fun u j hl hj => ?_) fun t₃ _ hl₃ => ?_
    · have hl := (watch p w).trans hl₂ hl
      exact watch_attachUnknown (sees_later hl hc)
        (sees_later hl fun h => (hrefs h).unknownCalls j (Array.mem_toList_iff.1 hj))
    have hc := sees_later ((watch p w).trans hl₂ hl₃) hc
    refine .modify fun ht => ?_
    split
    · exact watch_record ht .record rfl rfl fun h ht =>
        { ht with links := Array.forall_mem_push.2 ⟨⟨hc h, hm h⟩, ht.links⟩ }
    · exact ⟨ht, (watch p w).refl t₃, trivial⟩
  split
  · refine .next (watch_fabricateFormals (sees_later hl₃ hc) hm) fun t _ hl => ?_
    exact hfinish t ((watch p w).trans hl₃ hl)
  · exact hfinish s₃ hl₃

theorem watch_linkCapture {x : Capture} (hx : w.Strict → x.Refs (p.Within s)) :
    (watch p w).Runs s (linkCapture p c x) := by
  refine .get_bind (.of_holds fun hs => ?_)
  refine watch_lift_bind (fun h hp => hp.nodesOf ((hx h).source hp)) fun instances hinstances _ => ?_
  split
  · exact (watch_lift fun h hp => hp.leaveOut (List.forall_mem_singleton.2 ((hx h).source hp))).runs
  · refine .bind (watch_value hc (fun h => (hx h).target) nofun) fun s₁ target hl htarget => ?_
    refine .forM fun t y hl' hy => ?_
    have hsource := sees_later ((watch p w).trans hl hl') fun h =>
      (hs.2 h).graph.nodesOf hinstances y hy
    have htarget := sees_later hl' htarget.2
    refine .next (watch_flow nofun hsource htarget nofun) fun u _ hl'' => ?_
    split
    · exact .discard (watch_flow nofun (sees_later hl'' htarget) (sees_later hl'' hsource) nofun)
    · exact .pure trivial

omit hc

theorem watch_link {a : Activation} (ha : Activation.Refs (p.Sees w s) a) :
    (watch p w).Runs s (link p a) := by
  refine .get_bind (.of_holds fun hs => .forM fun t x hl hx => watch_linkCapture
    (sees_later hl ha.1) fun h => ?_)
  have hcaptures : ∀ x ∈ (s.captures[a.2]?).getD [], x.Refs (p.Within s) :=
    getD_of_forall (R := fun cs => ∀ x ∈ cs, x.Refs (p.Within s))
      (fun cs hcs => ((hs.2 h).captures a.2 cs hcs).2) (by simp)
  exact (hcaptures x hx).mono fun _ _ => within_later (hl.2 h)

theorem watch_drainOnce : (watch p w).Runs s (drainOnce p) := by
  refine .get_bind (.of_holds fun hs => ?_)
  split
  · exact .pure trivial
  next c m agenda hpop =>
  have hqueue := Queue.toList_of_pop? hpop
  have hfirst : w.Strict → Activation.Refs (p.Within s) (c, m) := fun h =>
    (hs.2 h).agenda (c, m) (hqueue ▸ .head _)
  have hm : p.Sees w s .method m := fun h => (hfirst h).2
  refine .next (watch_modify .record rfl rfl fun _ hs =>
    { hs with agenda := fun a ha => hs.agenda a (hqueue ▸ .tail _ ha) }) fun s₁ _ hl₁ => .get_bind ?_
  have hc : p.Sees w s₁ .context c := sees_later hl₁ fun h => (hfirst h).1
  split
  · exact .pure trivial
  refine .next (watch_modify (.instantiate _) rfl rfl fun h hs₁ =>
    { hs₁ with instantiated := forall_mem_insert hs₁.instantiated ⟨hc h, hm h⟩ })
    fun s₂ _ hl₂ => ?_
  refine .next (watch_summarize hm) fun s₃ _ hl₃ => ?_
  exact .last (watch_instantiate (sees_later ((watch p w).trans hl₂ hl₃) hc) hm)

end Instances

section Solving

/-- The solver hands back what it has found. The nodes and objects that it reports exist. -/
theorem watch_solveWith {retrigger : List NodeId} {updates : List (NodeId × ObjectSet)}
    (hobjects : ∀ u ∈ updates, u.2.Objects s.graph)
    (hr : w.Strict → ∀ n ∈ retrigger, p.Within s .node n)
    (hu : w.Strict → ∀ u ∈ updates, p.Within s .node u.1 ∧ u.2.Refs (p.Within s)) :
    (watch p w).Safe s (solveWith retrigger updates) fun t found => w.Strict →
      ∀ r ∈ found.receivers, p.Within t .node r.1 ∧ ∀ o ∈ r.2, p.Within t .node o := by
  intro hs
  let start : Solver := { graph := s.graph, points := s.points, cursor := s.cursor }
  have hstart : w.Strict → start.InRange p.scene s.sizes := fun h =>
    { graph := (hs.2 h).inGraph.toRefs
      points := (hs.2 h).points
      queue := by simp [start, Queue.toList]
      receivers := by simp [start]
      places := (hs.2 h).places
      cursor := (hs.2 h).cursor }
  have hsolve : (Solver.watch p.scene s.sizes ⟨True, w.Strict⟩).Runs start
      (Solving.solve retrigger updates) :=
    Solving.watch_solve (fun n hn h => hr h n hn) fun u hmem => ⟨fun h => (hu h u hmem).1,
      fun o ho => ⟨fun _ => hobjects u hmem o ho, fun h => (hu h u hmem).2 o ho⟩⟩
  have hout := hsolve ⟨fun _ => ⟨hs.1.graph, hs.1.points⟩, fun h =>
    ⟨(hs.2 h).contexts.has_empty, hstart h⟩⟩
  -- the state follows the solver
  have hchanges : ∀ {v v' : Solver}, v.Changes p.scene v' →
      ({ s with graph := v.graph, points := v.points, cursor := v.cursor } : State).Changes p
        { s with graph := v'.graph, points := v'.points, cursor := v'.cursor } := fun h =>
    h.lift
      (fun v => ({ s with graph := v.graph, points := v.points, cursor := v.cursor } : State))
      fun _ _ hchange => .solver hchange rfl rfl
  have hstate : ∀ v : Solver, s.InRange p → s.graph.Widens v.graph → v.InRange p.scene s.sizes →
      ({ s with graph := v.graph, points := v.points, cursor := v.cursor } : State).InRange p :=
    fun v hs hw hv => { hs.withGraph hw ⟨hv.graph, hv.places⟩ with
      points := hv.points
      cursor := hv.cursor }
  simp only [solveWith]
  revert hout
  generalize Solving.solve retrigger updates start = r
  intro hout
  cases hout with
  | @ok _ v hv hl _ =>
    have hstep := watch_step hs (hchanges (hl.1 trivial)) rfl fun h hs =>
      ⟨hstate v hs (hl.2 h) (hv.2 h).2, later_graph (p := p) (hl.2 h), trivial⟩
    refine .ok hstep.1 hstep.2.1 fun h r hr => ?_
    obtain ⟨⟨n, objects⟩, hmem, rfl⟩ := List.mem_map.1 hr
    have hreceivers := (hv.2 h).2.receivers n objects
      (Std.TreeMap.mem_toList_iff_getElem?_eq_some.1 hmem)
    exact ⟨hreceivers.1, fun o ho => hreceivers.2 o (Std.TreeSet.mem_toList.1 ho)⟩
  | @error e v hl he =>
    refine .error ⟨hchanges (hl.1 trivial), fun h => later_graph (p := p) (hl.2 h)⟩
      ⟨trivial, fun h => ⟨?_, hstate v (hs.2 h) (hl.2 h) (he.2 h).2⟩⟩
    obtain ⟨rfl | ⟨⟨f, rfl⟩, hp⟩, -⟩ := he.2 h
    · exact ⟨by rintro _ ⟨⟩, by rintro _ ⟨⟩⟩
    · exact .of_fault hp

/-- The solver takes over what waits. -/
theorem watch_solve : (watch p w).Safe s (solve p) fun t found => w.Strict →
    ∀ r ∈ found.receivers, p.Within t .node r.1 ∧ ∀ o ∈ r.2, p.Within t .node o := by
  refine .bind (V := fun t r => (∀ u ∈ r.2, u.2.Objects t.graph) ∧
    (w.Strict → (∀ n ∈ r.1, p.Within t .node n) ∧
      ∀ u ∈ r.2, p.Within t .node u.1 ∧ u.2.Refs (p.Within t))) (.modifyGet fun hs => ?_)
    fun t r _ hr => watch_solveWith hr.1 (fun h => (hr.2 h).1) fun h => (hr.2 h).2
  have hstep := watch_record hs .handOver rfl rfl fun _ hs =>
    { hs with retrigger := by simp, updates := by simp }
  refine ⟨hstep.1, hstep.2.1, fun u hu => ?_, fun h => ⟨fun n hn => ?_, fun u hu => ?_⟩⟩
  · exact hs.1.updates u.1 u.2 (mem_updatesIn.1 hu)
  · exact (hs.2 h).retrigger n (Std.TreeSet.mem_toList.1 hn)
  · exact (hs.2 h).updates u.1 u.2 (mem_updatesIn.1 hu)

end Solving

theorem watch_entryMethods : (watch p w).Safe s (entryMethods p) fun t ms =>
    ∀ m ∈ ms, p.Sees w t .method m := by
  unfold entryMethods
  split
  · refine .pure fun m hm _ h => ?_
    obtain ⟨f, hf, rfl⟩ := List.mem_map.1 hm
    exact (h.refs.files f (Array.mem_toList_iff.1 hf)).moduleMethod
  · refine .mapM (V := fun t m => p.Sees w t .method m) (fun hl hm => sees_later hl hm)
      fun t name _ _ => ?_
    refine watch_lift_bind (fun _ h => h.methodNamed? name) fun m? _ hm? => ?_
    split
    · exact .pure fun h hp => hm? h hp _ rfl
    · exact watch_fail ⟨nofun, nofun⟩

end PointsTo.Run
