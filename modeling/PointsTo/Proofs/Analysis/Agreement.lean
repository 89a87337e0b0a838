import PointsTo.Proofs.Analysis.Captures
import PointsTo.Proofs.Analysis.Issued

/-! The call graph and the methods that are instantiated agree, between two rounds as well as at the
end of an analysis. -/
namespace PointsTo

namespace State

variable {p : Problem} {s : State} {i : SiteId} {m m' : MethodId}

/-- Models take over all calls that an edge of the call graph stands for. -/
def TakenOver (p : Problem) (s : State) (i : SiteId) (m m' : MethodId) : Prop :=
  (∃ object, s.CallsOver p i m m' object) ∧ ∀ object, s.CallsOver p i m m' object →
    ∃ site, s.calls.sites.static? i = some site ∧ s.Modelled p site object

theorem Grounded.reachable (h : s.Grounded p) {a : Activation} (ha : a ∈ s.instantiated) :
    ∃ e ∈ s.entries, Relation.ReflTransGen s.calls.Invokes e.2 a.2 := by
  obtain ⟨e, he, hleads⟩ := h.tracked.reaches_of_runs ⟨a.1, ha⟩
  refine ⟨e, he, Relation.ReflTransGen.mono ?_ _ _ hleads⟩
  rintro m m' ⟨i, hj⟩
  exact h.tracked.coherent.invokes_of_joins hj

theorem Finished.runs (h : s.Finished p) (hm : s.Awaited m) : s.Runs m := by
  obtain ⟨c, hc⟩ := hm
  exact ⟨c, h.mem_instantiated hc⟩

/-- What a method captures at the end is what any survey of it finds. -/
theorem Finished.captures (h : s.Finished p) {a : Activation} (ha : a ∈ s.instantiated)
    (hbody : p.HasBody a.2) :
    ∃ v, p.Surveys a.2 v ∧ v.captures = (s.captures[a.2]?).getD [] := by
  have hmem := (h.instances a ha).surveyed hbody
  rw [Std.TreeMap.mem_iff_isSome_getElem?, Option.isSome_iff_exists] at hmem
  obtain ⟨summary, hsummary⟩ := hmem
  obtain ⟨v, hv, -, hcaptures, -⟩ := h.recorded.described a.2 summary hsummary
  exact ⟨v, hv, hcaptures⟩

/-- The owners of what a method captures run at the end. -/
theorem Finished.runs_owner (h : s.Finished p) (hs : s.Grounded p) {a : Activation}
    (ha : a ∈ s.instantiated) (hbody : p.HasBody a.2) {v : Survey} (hv : p.Surveys a.2 v)
    {x : Capture} (hx : x ∈ v.captures) : s.Runs x.owner := by
  obtain ⟨v', hv', hcaptures⟩ := h.captures ha hbody
  rw [(hv.alike hv').captures, hcaptures] at hx
  cases hm : s.captures[a.2]? with
  | none => simp [hm] at hx
  | some captures =>
    rw [hm] at hx
    exact h.runs (hs.tracked.captures a.2 captures hm x hx)

/-- A call that no model takes over has its callee run, also if the callee leads back to the caller:
then it has calls of its own. -/
theorem Finished.runs_or_modelled (h : s.Finished p) (hs : s.Grounded p) (haccounts : p.Accounts s)
    (hpolicy : p.settings.policy ≠ .object) (hbody : p.HasBody m') (hm : s.Runs m)
    {object : Option NodeId} (hcalls : s.CallsOver p i m m' object) :
    s.Runs m' ∨ ∃ site, s.calls.sites.static? i = some site ∧ s.Modelled p site object := by
  cases hcalls with
  | stated hmem hsummary hi hsite hcallee =>
    obtain ⟨_, hsite', hwired⟩ := ((h.instances _ hmem).filled _ hsummary).wired i hi
    cases Option.some.inj (hsite'.symm.trans hsite)
    subst hcallee
    rcases hwired hpolicy hbody with hmodel | ⟨c', hc'⟩
    · exact .inr ⟨_, hsite, hmodel⟩
    · exact .inl (h.runs ⟨c', hc'.awaited⟩)
  | @dispatched site c o hsite hcaller hi hmade =>
    rcases (haccounts.performed hsite hmade).reaches_or_made with hback | ⟨j, -, hcalled⟩
    · rcases hs.tracked.coherent.joins_of_reaches hback with rfl | ⟨j, m'', hj⟩
      · exact .inl (hcaller ▸ hm)
      · exact .inl (hs.tracked.edges _ _ _ hj).1
    · rcases hcalled.wired hbody with ⟨model, t, hmodel⟩ | ⟨c', offset, hc'⟩
      · -- whether a model takes over a call does not depend on the number of the call
        have ho : ∀ o' ∈ some o, o'.index < s.graph.nodes.size := by
          simpa using hmade.lt_size hs.sane
        have hagrees : Agrees (Alike s s) (Model.find? p (site.resolved j m') (some o))
            (Model.find? p (site.resolved i m') (some o)) :=
          Model.agrees_find? rfl rfl ((Retains.refl (p := p) s).looksLike? ho)
        obtain ⟨t', ht'⟩ := (hagrees.answers_iff (.refl s s)).1 ⟨t, hmodel⟩
        exact .inr ⟨_, hi, model, t', ht'⟩
      · exact .inl (h.runs ⟨c', hc'.awaited⟩)

/-- At the end the callee of an edge runs, unless models take over all its calls. -/
theorem Finished.runs_or_takenOver (h : s.Finished p) (hs : s.Grounded p) (haccounts : p.Accounts s)
    (hpolicy : p.settings.policy ≠ .object) (hj : s.calls.Joins i m m') (hbody : p.HasBody m') :
    s.Runs m' ∨ s.TakenOver p i m m' := by
  by_cases hruns : s.Runs m'
  · exact .inl hruns
  have hm := (hs.tracked.edges i m m' hj).1
  rcases hs.explained i m m' hj with ⟨a, ha, rfl⟩ | hcalls
  · exact .inl ⟨a.1, h.mem_instantiated (hs.tracked.entries a ha)⟩
  · refine .inr ⟨hcalls, fun object hobject => ?_⟩
    exact (h.runs_or_modelled hs haccounts hpolicy hbody hm hobject).resolve_left hruns

end State

theorem Problem.Surveys.captures_eq_nil {p : Problem} {m : MethodId} {v : Survey}
    (h : p.Surveys m v) (hbody : ¬ p.HasBody m) : v.captures = [] := by
  obtain ⟨calls, log, -, hrun⟩ := h
  obtain ⟨decl, v₁, hdecl, hrun⟩ := bind_eq_ok.1 hrun
  cases hm : p.scene.method m with
  | error f =>
    rw [hm] at hdecl
    cases hdecl
  | ok decl' =>
    rw [hm] at hdecl
    cases hdecl
    have hnone : decl.body = none := by
      simpa [MethodDecl.hasBody] using fun hsome => hbody ⟨decl, hm, hsome⟩
    rw [MethodDecl.stmts, hnone] at hrun
    cases hrun
    rfl

/-- If no statement belongs to two methods, then between two rounds calls lead from the entries to
all methods that are instantiated, and no other methods call. At the end of an analysis the owners of
captured variables are instantiated, and so are the callees of all calls that are not left to
models, but for the calls that object sensitivity puts off. -/
theorem Problem.analyze_agrees {p : Problem} (hone : p.scene.OneBody) :
    (∀ work n again s, p.after work n = .ok again s →
      (∀ a ∈ s.instantiated, ∃ e ∈ s.entries, Relation.ReflTransGen s.calls.Invokes e.2 a.2) ∧
      ∀ e ∈ s.calls.edges, ∃ m, (s.calls.nodes[e.caller]?).map (·.method) = some m ∧ s.Runs m) ∧
    ∀ fuel s, p.analyze fuel = .ok () s →
      (∀ a ∈ s.instantiated, (p.HasBody a.2 → ∃ v, p.Surveys a.2 v) ∧
        ∀ v, p.Surveys a.2 v → ∀ x ∈ v.captures, s.Runs x.owner) ∧
      (p.settings.policy ≠ .object → ∀ e ∈ s.calls.edges, ∃ m m',
        (s.calls.nodes[e.caller]?).map (·.method) = some m ∧
        (s.calls.nodes[e.callee]?).map (·.method) = some m' ∧
        (p.HasBody m' → s.Runs m' ∨ s.TakenOver p e.site m m')) := by
  refine ⟨fun work n again s hn => ?_, fun fuel s h => ⟨fun a ha => ⟨fun hbody => ?_, ?_⟩, ?_⟩⟩
  · have hs := grounded_of_after hone hn
    refine ⟨fun a ha => hs.reachable ha, fun e he => ?_⟩
    obtain ⟨m, m', hm, -, hj⟩ := hs.tracked.coherent.joins_of_mem he
    exact ⟨m, hm, (hs.tracked.edges _ _ _ hj).1⟩
  · obtain ⟨v, hv, -⟩ := (finished_of_analyze h).captures ha hbody
    exact ⟨v, hv⟩
  · obtain ⟨n, hn⟩ := after_of_analyze h
    intro v hv x hx
    by_cases hbody : p.HasBody a.2
    · exact (finished_of_analyze h).runs_owner (grounded_of_after hone hn) ha hbody hv hx
    · simp [hv.captures_eq_nil hbody] at hx
  · obtain ⟨n, hn⟩ := after_of_analyze h
    have hs := grounded_of_after hone hn
    intro hpolicy e he
    obtain ⟨m, m', hm, hm', hj⟩ := hs.tracked.coherent.joins_of_mem he
    exact ⟨m, m', hm, hm', (finished_of_analyze h).runs_or_takenOver hs
      (reachable_of_analyze h).accounts hpolicy hj⟩

/-- The module calls `f` and `inner`, which captures a variable of the module: all three run, and the
edges lead to them. -/
theorem Problem.analyze_agrees_lateCapture :
    (lateCapture 1).scene.OneBody ∧ ∃ s, (lateCapture 1).analyze 4 = .ok () s ∧
      s.calls.edges.size = 3 ∧ (⟨2⟩, ⟨2⟩) ∈ s.instantiated ∧
      (∃ v, (lateCapture 1).Surveys ⟨2⟩ v ∧ lateCapture.x ∈ v.captures ∧
        ∀ x ∈ v.captures, s.Runs x.owner) ∧
      (∀ e ∈ s.calls.edges, ∃ m m', (s.calls.nodes[e.caller]?).map (·.method) = some m ∧
        (s.calls.nodes[e.callee]?).map (·.method) = some m' ∧
        ((lateCapture 1).HasBody m' → s.Runs m' ∨ s.TakenOver (lateCapture 1) e.site m m')) ∧
      ∃ again s₁, (lateCapture 1).after 4 2 = .ok again s₁ ∧ (⟨2⟩, ⟨2⟩) ∈ s₁.instantiated ∧
        (∃ e ∈ s₁.entries, Relation.ReflTransGen s₁.calls.Invokes e.2 ⟨2⟩) ∧
        s₁.calls.edges.size = 3 ∧
        ∀ e ∈ s₁.calls.edges, ∃ m, (s₁.calls.nodes[e.caller]?).map (·.method) = some m ∧
          s₁.Runs m := by
  have hone : (lateCapture 1).scene.OneBody := by decide
  obtain ⟨hbetween, hend⟩ := analyze_agrees hone
  obtain ⟨_, s, h, hs⟩ := exists_of_endsWith (r := (lateCapture 1).analyze 4)
    (q := fun _ s => s.calls.edges.size == 3 && s.instantiated.contains (⟨2⟩, ⟨2⟩))
    (by decide +kernel)
  obtain ⟨again, s₁, hn, hs₁⟩ := exists_of_endsWith (r := (lateCapture 1).after 4 2)
    (q := fun _ s => s.instantiated.contains (⟨2⟩, ⟨2⟩) && s.calls.edges.size == 3)
    (by decide +kernel)
  rw [Bool.and_eq_true, beq_iff_eq, Std.TreeSet.contains_iff_mem] at hs hs₁
  obtain ⟨hcaptures, hedges⟩ := hend 4 s h
  obtain ⟨hreached, hcallers⟩ := hbetween 4 2 again s₁ hn
  have hsurvey : ∃ v, (lateCapture 1).Surveys ⟨2⟩ v ∧ lateCapture.x ∈ v.captures := by
    obtain ⟨_, v, hv, hx⟩ := exists_of_endsWith
      (r := Survey.ofMethod (lateCapture 1).scene false ⟨2⟩ {} #[])
      (q := fun _ v => v.captures.contains lateCapture.x) (by decide +kernel)
    exact ⟨v, ⟨{}, #[], by simp [CallGraph.Listed], hv⟩, List.contains_iff_mem.1 hx⟩
  obtain ⟨v, hv, hx⟩ := hsurvey
  exact ⟨hone, s, h, hs.1, hs.2, ⟨v, hv, hx, (hcaptures _ hs.2).2 v hv⟩, hedges (by decide), again,
    s₁, hn, hs₁.1, hreached _ hs₁.1, hs₁.2, hcallers⟩

end PointsTo
