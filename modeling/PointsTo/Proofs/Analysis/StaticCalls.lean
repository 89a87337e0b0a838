import PointsTo.Proofs.Analysis.Progress

/-! At the end of an analysis, what a call with a known callee hands over has arrived: arguments and
the receiver at the callee, results at the caller. -/
namespace PointsTo

/-- Every formal of every body is bound to a local. -/
def Problem.BindsFormals (p : Problem) : Prop :=
  ∀ m formals, p.HasBody m → p.scene.parameterLocals m = .ok formals → ∀ v ∈ formals, v.isSome

/-- What a call under the context `c` hands over to its callee under `c'`, and back, has arrived. -/
structure State.Transfers (p : Problem) (s : State) (site : StaticSite) (c c' : ContextId) :
    Prop where
  arguments : ∀ args formals (k : Nat) a, site.args = some args →
    p.scene.parameterLocals site.callee = .ok formals → args[k]? = some a → k < formals.size →
    a.Carries p.scene → ∃ v, formals[k]? = some (some v) ∧
      ∀ o, s.PointsAt p c a o → s.PointsAt p c' (.value v) o
  returns : ∀ target v, site.target = some target → p.Returns site.callee v →
    ∀ o, s.PointsAt p c' (.value v) o → s.PointsAt p c (.value target) o
  receiver : ∀ base decl, site.receiver = some base → p.scene.method site.callee = .ok decl →
    decl.isStatic = false → ∃ v, p.scene.receiverLocal? site.callee = .ok (some v) ∧
      ∀ o, s.PointsAt p c (.value base) o → s.PointsAt p c' (.value v) o

theorem Problem.BindsFormals.getElem? {p : Problem} (h : p.BindsFormals) {m : MethodId}
    {formals : Array (Option ValueId)} (hbody : p.HasBody m)
    (hformals : p.scene.parameterLocals m = .ok formals) {k : Nat} (hk : k < formals.size) :
    ∃ v, formals.toList[k]? = some (some v) := by
  obtain ⟨v, hv⟩ := Option.isSome_iff_exists.1 (h m formals hbody hformals _ (formals.getElem_mem hk))
  exact ⟨v, by rw [Array.getElem?_toList, Array.getElem?_eq_getElem hk, hv]⟩

theorem State.Finished.transfers {p : Problem} {s : State} (h : s.Finished p)
    (hformals : p.BindsFormals) {site : StaticSite} {c c' : ContextId}
    (hbody : p.HasBody site.callee) (hwired : s.Wired p site c none c' 0) :
    s.Transfers p site c c' where
  arguments args formals k a hargs hlocals ha hk hcarries := by
    have hbound : ∀ j ≤ k, ∃ u, (formals.toList.drop 0)[j]? = some (some u) := by
      intro j hj
      rw [List.drop_zero]
      exact hformals.getElem? hbody hlocals (Nat.lt_of_le_of_lt hj hk)
    obtain ⟨v, hv⟩ := hbound k (Nat.le_refl k)
    have hflows := hwired.arguments args formals hargs hlocals k a v ha hv
      (fun j hj => hbound j (Nat.le_of_lt hj)) hcarries
    rw [List.drop_zero, Array.getElem?_toList] at hv
    exact ⟨v, hv, fun o ho => h.pointsAt hflows ho⟩
  returns target v htarget hv o ho := h.pointsAt (hwired.returns target v htarget hv) ho
  receiver base decl hbase hdecl hstatic := by
    obtain ⟨v, hv, hflows⟩ := hwired.receiver rfl base decl hbase hdecl hstatic
    exact ⟨v, hv, fun o ho => h.pointsAt hflows ho⟩

/-- Unless contexts are made of objects, every call with a known callee that an instantiated body
makes is connected with its callee under the context that the call selects. -/
theorem Problem.analyze_transfers {p : Problem} {fuel : Nat} {s : State}
    (h : p.analyze fuel = .ok () s) (hformals : p.BindsFormals)
    (hpolicy : p.settings.policy ≠ .object) {c : ContextId} {f : MethodId} {summary : Summary}
    {i : SiteId} (hinstance : (c, f) ∈ s.instantiated)
    (hsummary : s.summaries[f]? = some summary) (hi : i ∈ summary.staticCalls) :
    ∃ site, s.calls.sites.static? i = some site ∧
      (p.HasBody site.callee → s.Unmodelled p site none →
        ∃ c', s.CalleeContext p site.id c none site.callee c' ∧
          (c', site.callee) ∈ s.instantiated ∧ s.Transfers p site c c') := by
  have hf := finished_of_analyze h
  obtain ⟨site, hsite, hwired⟩ := ((hf.instances _ hinstance).filled summary hsummary).wired i hi
  refine ⟨site, hsite, fun hbody hmodel => ?_⟩
  obtain ⟨c', hc'⟩ := (hwired hpolicy hbody).resolve_left hmodel.not_modelled
  exact ⟨c', hc'.selected.calleeContext, hf.mem_instantiated hc'.awaited,
    hf.transfers hformals hbody hc'⟩

theorem State.unmodelled_of_endsWith {p : Problem} {s : State} {site : StaticSite}
    {object : Option NodeId}
    (h : endsWith (Model.find? p site object s) (fun model? _ => model?.isNone) = true) :
    s.Unmodelled p site object := by
  obtain ⟨model?, t, hfind, hnone⟩ := exists_of_endsWith h
  exact ⟨t, Option.isNone_iff_eq_none.1 hnone ▸ hfind⟩

/-- `x = new Foo; y = x.echo(x)`, where `echo` returns its argument. -/
def echoed : Problem where
  scene := {
    files := #[⟨⟨0⟩, "main", ⟨0⟩, ⟨0⟩, ∅, ∅⟩]
    classes := #[⟨⟨0⟩, "Main", none, ⟨0⟩, none, false, ∅⟩,
      ⟨⟨1⟩, "Foo", none, ⟨0⟩, none, false, (∅ : NameMap MethodId).insert "echo" ⟨1⟩⟩]
    methods := #[
      plainMethod 0 "main" {
        locals := ((∅ : NameMap ValueId).insert "x" ⟨0⟩).insert "y" ⟨1⟩
        stmts := #[⟨0⟩, ⟨1⟩] },
      { plainMethod 1 "echo" {
          locals := ((∅ : NameMap ValueId).insert "this" ⟨2⟩).insert "p" ⟨3⟩
          stmts := #[⟨2⟩, ⟨3⟩, ⟨4⟩] } with
        owner := ⟨1⟩
        signature := ⟨"Foo", "echo"⟩
        isStatic := false
        params := [.any] }]
    stmts := #[⟨⟨0⟩, .assign ⟨0⟩ ⟨4⟩⟩, ⟨⟨0⟩, .assign ⟨1⟩ ⟨5⟩⟩, ⟨⟨1⟩, .assign ⟨2⟩ ⟨6⟩⟩,
      ⟨⟨1⟩, .assign ⟨3⟩ ⟨7⟩⟩, ⟨⟨1⟩, .ret ⟨3⟩⟩]
    values := #[.var "x" (.object "Foo"), .var "y" .any, .var "this" (.object "Foo"), .var "p" .any,
      .new "Foo", .instanceCall ⟨0⟩ ⟨"Foo", "echo"⟩ [⟨0⟩], .self "Foo", .parameter 0 .any] }

theorem echoed_bindsFormals : echoed.BindsFormals := by
  rintro ⟨k⟩ formals ⟨decl, hdecl, -⟩ hformals
  have hk : k < 2 := echoed.hasMethod_of_method hdecl
  match k, hk with
  | 0, _ =>
    cases hformals
    decide
  | 1, _ =>
    cases hformals
    decide

/-- The call `x.echo(x)` of the module hands `x` over to the formal and to the receiver of `echo`. -/
theorem Problem.analyze_transfers_echoed :
    ∃ s site c', echoed.analyze 3 = .ok () s ∧ s.calls.sites.static? ⟨0⟩ = some site ∧
      s.CalleeContext echoed site.id .empty none site.callee c' ∧
      (c', site.callee) ∈ s.instantiated ∧ s.Transfers echoed site .empty c' := by
  obtain ⟨_, s, h, hs⟩ := exists_of_endsWith (r := echoed.analyze 3)
    (q := fun _ s => s.instantiated.contains (.empty, ⟨0⟩) &&
      ((s.summaries[(⟨0⟩ : MethodId)]?).any (·.staticCalls.contains ⟨0⟩) &&
        (s.calls.sites.static? ⟨0⟩).any fun site => site.callee == ⟨1⟩ &&
          endsWith (Model.find? echoed site none s) fun model? _ => model?.isNone)) (by decide +kernel)
  simp only [Bool.and_eq_true, Option.any_eq_true, beq_iff_eq] at hs
  obtain ⟨hinstance, ⟨summary, hsummary, hi⟩, site, hsite, hcallee, hmodel⟩ := hs
  obtain ⟨site', hsite', hwired⟩ := analyze_transfers h echoed_bindsFormals (by decide)
    (Std.TreeSet.contains_iff_mem.1 hinstance) hsummary (Array.contains_iff_mem.1 hi)
  cases Option.some.inj (hsite.symm.trans hsite')
  have hbody : echoed.HasBody site.callee := hcallee ▸ ⟨_, rfl, rfl⟩
  obtain ⟨c', hc'⟩ := hwired hbody (State.unmodelled_of_endsWith hmodel)
  exact ⟨s, site, c', h, hsite, hc'⟩

end PointsTo
