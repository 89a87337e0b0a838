import PointsTo.Proofs.Analysis.Exchanges
import PointsTo.Proofs.Analysis.ReflectiveCalls

/-! Stores for UI state. The calls that name one key of one store by a constant meet in one node,
whatever their contexts, and calls that name another key or another store meet elsewhere. -/
namespace PointsTo

namespace FlowGraph

variable {g g' : FlowGraph} {scene : Scene} {n n' : NodeId} {space space' key key' : String}

/-- Whether `n` is the slot of a key, which all contexts share. -/
def IsSlot (g : FlowGraph) (n : NodeId) (space key : String) : Prop :=
  ∃ a, g.At n a ∧ a.context = .empty ∧ a.location = .slot space key

theorem Persists.isSlot (h : g.Persists g') (hn : g.IsSlot n space key) :
    g'.IsSlot n space key := by
  obtain ⟨a, ha, hcontext, hlocation⟩ := hn
  obtain ⟨a', ha', hkeeps⟩ := h.nodes n a ha
  exact ⟨a', ha', hkeeps.context.trans hcontext, hkeeps.location.trans hlocation⟩

/-- One key of one space has one slot, and a slot belongs to one key of one space. -/
theorem Consistent.slot_eq_iff (hg : g.Consistent scene) (hn : g.IsSlot n space key)
    (hn' : g.IsSlot n' space' key') : n = n' ↔ space = space' ∧ key = key' := by
  constructor
  · rintro rfl
    obtain ⟨a, ha, -, hlocation⟩ := hn
    obtain ⟨a', ha', -, hlocation'⟩ := hn'
    cases Option.some.inj (ha.symm.trans ha')
    exact Location.slot.inj (hlocation.symm.trans hlocation')
  · rintro ⟨rfl, rfl⟩
    exact Option.some.inj (((hg.interned _ _ _).2 hn).symm.trans ((hg.interned _ _ _).2 hn'))

theorem ensures_isSlot (hg : g.Consistent scene) :
    Ensures (Growing.slot space key) g fun n g' => g.Grows scene g' ∧ g'.IsSlot n space key :=
  (ensures_intern_other hg rfl (by simp) (by simp) (by simp) (by trivial)).mono
    fun _ _ h => ⟨h.1, (h.1.consistent.interned _ _ _).1 h.2.1⟩

end FlowGraph

/-- The modelled methods that read or write a key of a store. -/
def ApiName.isStorage (api : ApiName) : Bool := api.isStorageWrite || api.isStorageRead

/-- Only the methods of a store are modelled as such. -/
theorem ApiName.mem_storageClasses {owner method : String} {api : ApiName}
    (h : ApiName.of? owner method = some api) (hstorage : api.isStorage = true) :
    owner ∈ Platform.storageClasses := by
  by_contra howner
  have hmem : (method, api) ∈ methodsOf owner := mem_of_lookup h
  have hnone : ∀ m ∈ methodsOf owner, m.2.isStorage = false := by
    rw [methodsOf, if_neg (c := Platform.storageClasses.contains owner = true) (by simpa using howner)]
    split_ifs <;> decide
  exact absurd hstorage (by simp [hnone _ hmem])

/-- The channels of workers have slots of their own. -/
theorem Model.Worker.notMem_storageClasses (script : String) :
    "worker:" ++ script ∉ Platform.storageClasses := by
  intro h
  have hhead : ∀ storage ∈ Platform.storageClasses, storage.toList.head? ≠ some 'w' := by decide
  exact hhead _ h (by simp)

/-- A call of a modelled method of a store for one key, which a constant names. -/
structure Problem.Accesses (p : Problem) (site : StaticSite) (api : ApiName)
    (storage key : String) : Prop where
  method : ∃ decl owner, p.scene.method site.callee = .ok decl ∧
    p.scene.classOfMethod site.callee = .ok owner ∧ owner.name = storage ∧
    ApiName.of? storage decl.name = some api
  isStorage : api.isStorage = true
  constant : ∃ v value, (site.args.getD []).head? = some (.value v) ∧
    p.scene.value v = .ok value ∧ value.stringConstant? = some key

section

variable {p : Problem} {w : Phase} {s t : State} {site : StaticSite} {c : ContextId}
  {object : Option NodeId} {api : ApiName} {storage key : String}

theorem Problem.Accesses.apiOf? (h : p.Accesses site api storage key) :
    p.apiOf? site.callee = .ok (some api) := by
  obtain ⟨decl, owner, hdecl, howner, rfl, hapi⟩ := h.method
  rw [Problem.apiOf?, hdecl, howner, ← hapi]
  rfl

theorem Problem.Accesses.mem_storageClasses (h : p.Accesses site api storage key) :
    storage ∈ Platform.storageClasses := by
  obtain ⟨_, _, _, _, _, hapi⟩ := h.method
  exact ApiName.mem_storageClasses hapi h.isStorage

namespace State

/-- The slot of a key flows to the target of a call, and for a link also the other way. -/
def Reads (p : Problem) (s : State) (site : StaticSite) (c : ContextId) (linked : Bool)
    (slot : NodeId) : Prop :=
  ∀ target, site.target = some target →
    ∃ y, s.graph.nodeOf? p.scene c target = .ok (some y) ∧ s.graph.Edge slot y .copy ∧
      (linked = true → s.graph.Edge y slot .copy)

theorem Reads.retains {linked : Bool} {slot : NodeId} (h : s.Reads p site c linked slot)
    (hr : s.Retains p t) : t.Reads p site c linked slot := by
  intro target htarget
  obtain ⟨y, hy, hout, hback⟩ := h target htarget
  exact ⟨y, hr.nodeOf _ _ _ hy, hr.graph.edge hout, fun hlink => hr.graph.edge (hback hlink)⟩

/-- A call has been connected with the slot of its key. -/
structure Accessed (p : Problem) (s : State) (api : ApiName) (site : StaticSite) (c : ContextId)
    (slot : NodeId) : Prop where
  writes : api.isStorageWrite = true → ∀ a, (site.args.getD [])[1]? = some a → s.Feeds p c a slot
  reads : api.isStorageRead = true → s.Reads p site c api.isStorageLink slot

theorem Accessed.retains {slot : NodeId} (h : s.Accessed p api site c slot)
    (hr : s.Retains p t) : t.Accessed p api site c slot where
  writes hwrite a ha := (h.writes hwrite a ha).retains hr
  reads hread := (h.reads hread).retains hr

end State

namespace Model
open Run State

namespace Storage

theorem ensures_slot (hs : s.Sane p) :
    Ensures (grow (Growing.slot storage key)) s fun slot t => s.Steps p w t ∧
      t.graph.IsSlot slot storage key := by
  refine (ensures_grow (FlowGraph.ensures_isSlot hs.graph)).mono ?_
  rintro slot _ ⟨g, rfl, hgrows, hslot⟩
  exact ⟨.single (.nodes hgrows), hslot⟩

/-- To mark the target as linked changes nothing in what it is connected with. -/
theorem ensures_mark {new : List NodeId} {n slot : NodeId} {linked : Bool} (hs : s.Sane p)
    (h : s.Steps p w t ∧ t.Reads p site c linked slot) :
    Ensures (do
      mapPointer n fun i => { i with link := some (storage, key) }
      pure new) t fun _ t' => s.Steps p w t' ∧
        (api.isStorageRead = true → t'.Reads p site c linked slot) := by
  refine ensures_bind ensures_mapPointer ?_
  rintro _ t' hmapped
  have ht : t.Steps p w t' := hmapped ▸ .single (.mark (fun _ => rfl) fun _ => rfl)
  exact ensures_pure ⟨h.1.trans ht, fun _ => h.2.retains (ht.retains (h.1.sane hs))⟩

theorem ensures_connect (hs : s.Sane p) :
    Ensures (connect p api site c storage key) s fun _ t => s.Steps p w t ∧
      ∃ slot, t.graph.IsSlot slot storage key ∧ t.Accessed p api site c slot := by
  refine ensures_bind (ensures_slot (w := w) hs) ?_
  rintro slot s₁ ⟨h₁, hslot⟩
  have hs₁ := h₁.sane hs
  extract_lets start finish read
  -- What is read does not depend on what has been written before.
  have hread : ∀ new s₂, s₂.Sane p → Ensures (read () new) s₂ fun _ t => s₂.Steps p w t ∧
      (api.isStorageRead = true → t.Reads p site c api.isStorageLink slot) := by
    intro new s₂ hs₂
    dsimp only [read, finish]
    split
    case isFalse hno => exact ensures_pure ⟨.refl, fun h => absurd h hno⟩
    refine ensures_bind (ensures_targetNode (w := w) hs₂) ?_
    rintro target? s₃ ⟨h₃, htarget⟩
    have hs₃ := h₃.sane hs₂
    split
    case h_2 hnone =>
      refine ensures_pure ⟨h₃, fun _ target ht => ?_⟩
      obtain ⟨y, hy, -⟩ := htarget target ht
      exact absurd hy (hnone y)
    next y =>
    refine ensures_bind (ensures_flow (w := w) (by decide) hs₃) ?_
    rintro _ s₄ ⟨h₄, hout⟩
    have hs₄ := h₄.sane hs₃
    have hfound : ∀ s₅, s₄.Steps p w s₅ → (api.isStorageLink = true → s₅.graph.Edge y slot .copy) →
        s₂.Steps p w s₅ ∧ s₅.Reads p site c api.isStorageLink slot := by
      refine fun s₅ h₅ hback => ⟨(h₃.trans h₄).trans h₅, fun target ht => ?_⟩
      obtain ⟨y', hy', hnode⟩ := htarget target ht
      cases hy'
      have hr := h₅.retains hs₄
      exact ⟨y, hr.nodeOf _ _ _ ((h₄.retains hs₃).nodeOf _ _ _ hnode), hr.graph.edge hout, hback⟩
    split
    case isFalse hlink => exact ensures_mark hs₂ (hfound s₄ .refl fun h => absurd h hlink)
    refine ensures_bind (ensures_flow (w := w) (by decide) hs₄) ?_
    rintro _ s₅ ⟨h₅, hback⟩
    exact ensures_mark hs₂ (hfound s₅ h₅ fun _ => hback)
  have hend : ∀ new s₂, s₁.Steps p w s₂ →
      (api.isStorageWrite = true → ∀ a, (site.args.getD [])[1]? = some a → s₂.Feeds p c a slot) →
      Ensures (read () new) s₂ fun _ t => s.Steps p w t ∧
        ∃ slot, t.graph.IsSlot slot storage key ∧ t.Accessed p api site c slot := by
    intro new s₂ h₂ hfeeds
    have hs₂ := h₂.sane hs₁
    refine (hread new s₂ hs₂).mono ?_
    rintro _ t ⟨h₃, hreads⟩
    have hr : s₁.Retains p t := (h₂.trans h₃).retains hs₁
    exact ⟨(h₁.trans h₂).trans h₃, slot, hr.graph.isSlot hslot,
      fun hwrite a ha => (hfeeds hwrite a ha).retains (h₃.retains hs₂), hreads⟩
  split
  case isFalse hno => exact hend _ s₁ .refl fun h => absurd h hno
  refine ensures_bind (ensures_argumentAt (w := w) hs₁) ?_
  rintro source? s₂ ⟨h₂, hsource⟩
  have hs₂ := h₂.sane hs₁
  split
  case h_2 hnone =>
    refine hend _ s₂ h₂ fun _ a ha hcarries => ?_
    obtain ⟨x, hx, -⟩ := hsource a ha hcarries
    exact absurd hx (hnone x)
  next x =>
  refine ensures_bind (ensures_flow (w := w) (by decide) hs₂) ?_
  rintro _ s₃ ⟨h₃, hedge⟩
  refine hend _ s₃ (h₂.trans h₃) fun _ a ha hcarries => ?_
  obtain ⟨x', hx', hnode⟩ := hsource a ha hcarries
  cases hx'
  exact ⟨x, hnode.retains (h₃.retains hs₂), hedge⟩

end Storage

/-- A call that names a key is left to the model of stores. -/
theorem find?_accesses (h : p.Accesses site api storage key) :
    find? p site object s = .ok (some .storage) s := by
  have haccepts : accepts p site object .storage s = .ok true s := by
    rw [accepts, bind_run_of_ok (apiOf?_run h.apiOf?)]
    exact congrArg (EStateM.Result.ok · s) h.isStorage
  rw [find?, all, List.findM?, bind_run_of_ok haccepts]
  rfl

theorem constantArgument?_run (h : p.Accesses site api storage key) :
    constantArgument? p site s = .ok (some key) s := by
  obtain ⟨v, value, hv, hvalue, hkey⟩ := h.constant
  rw [constantArgument?, hv]
  dsimp only
  rw [hvalue]
  exact congrArg (EStateM.Result.ok · s) hkey

end Model

theorem Run.call_eq_connect (h : p.Accesses site api storage key) :
    call p site c object s = Model.Storage.connect p api site c storage key s := by
  obtain ⟨decl, owner, hdecl, howner, rfl, hapi⟩ := h.method
  rw [call, bind_run_of_ok (Model.find?_accesses h)]
  dsimp only [Model.handle]
  rw [bind_run_of_ok (Model.apiOf?_run h.apiOf?)]
  dsimp only [Model.Storage.handle]
  rw [howner]
  exact bind_run_of_ok (Model.constantArgument?_run h)

/-- A call for a key that has been made is connected with the slot of the key. -/
theorem State.Made.accessed (h : s.Made p site c object) (ha : p.Accesses site api storage key) :
    ∃ slot, s.graph.IsSlot slot storage key ∧ s.Accessed p api site c slot := by
  obtain ⟨t, t', hbefore, hplaces, hafter⟩ := h
  have ht : t.Sane p := Problem.sane_of_history hbefore
  obtain ⟨new, hrun⟩ := hplaces.run
  rw [Run.call_eq_connect ha] at hrun
  obtain ⟨hsteps, slot, hslot, haccessed⟩ :=
    (Model.Storage.ensures_connect (w := .dispatch) ht).1 hrun
  have hr : t'.Retains p s := State.History.retains hafter (hsteps.sane ht)
  exact ⟨slot, hr.graph.isSlot hslot, haccessed.retains hr⟩

end

/-- Calls for the keys of stores, under any context. The first part is about the calls that
have been made, and the next two about their slots, which workers do not use either. The last two
parts say that no call is left out: neither one in a method that has been instantiated nor one that
has been dispatched, unless its callee leads back to its caller. -/
theorem Problem.analyze_connects_keys {p : Problem} {fuel : Nat} {s : State}
    (h : p.analyze fuel = .ok () s) :
    (∀ site c object api storage key, s.Made p site c object → p.Accesses site api storage key →
      ∃ slot, s.graph.IsSlot slot storage key ∧
        (api.isStorageWrite = true → ∀ a, (site.args.getD [])[1]? = some a → a.Carries p.scene →
          ∃ x, s.NodeAt p c a x ∧ ∀ o, s.points.Has x o → s.points.Has slot o) ∧
        (api.isStorageRead = true → ∀ target, site.target = some target →
          ∃ y, s.graph.nodeOf? p.scene c target = .ok (some y) ∧
            (∀ o, s.points.Has slot o → s.points.Has y o) ∧
            (api.isStorageLink = true → ∀ o, s.points.Has y o ↔ s.points.Has slot o))) ∧
    (∀ slot slot' storage storage' key key', s.graph.IsSlot slot storage key →
      s.graph.IsSlot slot' storage' key' → (slot = slot' ↔ storage = storage' ∧ key = key')) ∧
    (∀ site api storage key slot channel script d, p.Accesses site api storage key →
      s.graph.IsSlot slot storage key →
      s.graph.IsSlot channel ("worker:" ++ script) (Model.Worker.Direction.slotKey d) →
      slot ≠ channel) ∧
    (∀ a ∈ s.instantiated, ∀ summary : Summary, s.summaries[a.2]? = some summary →
      ∀ i ∈ summary.staticCalls, s.Issued p a.1 i) ∧
    (∀ d ∈ s.resolved, ∀ site callee, s.calls.sites.dynamic? d.1 = some site →
      s.ResolvesTo p site d.2.2 callee → s.Performed p site d.2.1 d.2.2 callee) := by
  have hend := finished_of_analyze h
  have haccounts := (reachable_of_analyze h).accounts
  have hgraph := haccounts.sane.graph
  refine ⟨fun site c object api storage key hmade haccess => ?_,
    fun _ _ _ _ _ _ => hgraph.slot_eq_iff, ?_, fun a ha => (haccounts.issued a ha).issued,
    fun d hd => (haccounts.concluded d hd).performed⟩
  · obtain ⟨slot, hslot, haccessed⟩ := hmade.accessed haccess
    refine ⟨slot, hslot, fun hwrite a ha => hend.feeds (haccessed.writes hwrite a ha), ?_⟩
    intro hread target htarget
    obtain ⟨y, hy, hout, hback⟩ := haccessed.reads hread target htarget
    exact ⟨y, hy, fun _ => hend.has_of_edge hout, fun hlink _ =>
      ⟨hend.has_of_edge (hback hlink), hend.has_of_edge hout⟩⟩
  · rintro site api storage key slot _ script d haccess hslot hchannel rfl
    have heq := ((hgraph.slot_eq_iff hslot hchannel).1 rfl).1
    exact Model.Worker.notMem_storageClasses script (heq ▸ haccess.mem_storageClasses)

/-- The program `x = new Foo; y = new Bar; a = AppStorage.setAndLink("k", x);
AppStorage.set("j", y)`. -/
def keyedStore : Problem where
  scene := {
    files := #[⟨⟨0⟩, "main", ⟨0⟩, ⟨0⟩, ∅, ∅⟩]
    classes := #[⟨⟨0⟩, "Main", none, ⟨0⟩, none, false, ∅⟩,
      ⟨⟨1⟩, "AppStorage", none, ⟨0⟩, none, true, ∅⟩]
    methods := #[
      plainMethod 0 "main" { stmts := #[⟨0⟩, ⟨1⟩, ⟨2⟩, ⟨3⟩] },
      { plainMethod 1 "setAndLink" {} with
        owner := ⟨1⟩, signature := ⟨"AppStorage", "setAndLink"⟩, body := none },
      { plainMethod 2 "set" {} with
        owner := ⟨1⟩, signature := ⟨"AppStorage", "set"⟩, body := none }]
    stmts := #[⟨⟨0⟩, .assign ⟨0⟩ ⟨1⟩⟩, ⟨⟨0⟩, .assign ⟨2⟩ ⟨3⟩⟩, ⟨⟨0⟩, .assign ⟨4⟩ ⟨5⟩⟩,
      ⟨⟨0⟩, .call ⟨6⟩⟩]
    values := #[.var "x" .any, .new "Foo", .var "y" .any, .new "Bar", .var "a" .any,
      .staticCall ⟨"AppStorage", "setAndLink"⟩ [⟨7⟩, ⟨0⟩],
      .staticCall ⟨"AppStorage", "set"⟩ [⟨8⟩, ⟨2⟩], .constant (.str "k"), .constant (.str "j")] }

private def keyCalls (s : State) (summary : Summary) (link set : StaticSite) : Bool :=
  decide (⟨0⟩ ∈ summary.staticCalls ∧ ⟨1⟩ ∈ summary.staticCalls ∧
    (link.callee = ⟨1⟩ ∧ link.receiver = none ∧ link.target = some ⟨4⟩ ∧
      link.args = some [.value ⟨7⟩, .value ⟨0⟩]) ∧
    (set.callee = ⟨2⟩ ∧ set.receiver = none ∧ set.args = some [.value ⟨8⟩, .value ⟨2⟩]) ∧
    (.empty, ⟨0⟩) ∈ s.instantiated ∧ s.pointsTo keyedStore.scene ⟨4⟩ = .ok [⟨0⟩])

/-- Both calls have been made. What `a` and the slot of `k` point to is the same, namely
the object of `x`, and it has nothing to do with the slot of `j`, which holds what `y` points to. -/
theorem Problem.analyze_connects_keys_keyedStore :
    ∃ s link set y k j x, keyedStore.analyze 3 = .ok () s ∧
      s.Made keyedStore link .empty none ∧ s.Made keyedStore set .empty none ∧
      s.graph.IsSlot k "AppStorage" "k" ∧ s.graph.IsSlot j "AppStorage" "j" ∧ k ≠ j ∧
      s.graph.nodeOf? keyedStore.scene .empty ⟨4⟩ = .ok (some y) ∧
      (∀ o, s.points.Has y o ↔ s.points.Has k o) ∧
      s.NodeAt keyedStore .empty (.value ⟨2⟩) x ∧ (∀ o, s.points.Has x o → s.points.Has j o) ∧
      s.pointsTo keyedStore.scene ⟨4⟩ = .ok [⟨0⟩] := by
  obtain ⟨_, s, h, hs⟩ := exists_of_endsWith (r := keyedStore.analyze 3)
    (q := fun _ s => (s.summaries[(⟨0⟩ : MethodId)]?).any fun summary =>
      (s.calls.sites.static? ⟨0⟩).any fun link => (s.calls.sites.static? ⟨1⟩).any fun set =>
        keyCalls s summary link set) (by decide +kernel)
  simp only [keyCalls, Option.any_eq_true, decide_eq_true_eq] at hs
  obtain ⟨summary, hsummary, link, hlink, set, hset, hfacts⟩ := hs
  obtain ⟨hmem₀, hmem₁, ⟨hcallee, hreceiver, htarget, hargs⟩, ⟨hcallee', hreceiver', hargs'⟩,
    hinst, hpoints⟩ := hfacts
  obtain ⟨hkeys, hslots, -, hissued, -⟩ := analyze_connects_keys h
  obtain ⟨_, hsite, hmade⟩ := hissued _ hinst summary hsummary _ hmem₀
  cases Option.some.inj (hsite.symm.trans hlink)
  obtain ⟨_, hsite', hmade'⟩ := hissued _ hinst summary hsummary _ hmem₁
  cases Option.some.inj (hsite'.symm.trans hset)
  have haccess : keyedStore.Accesses link .storageSetAndLink "AppStorage" "k" :=
    ⟨⟨_, _, by rw [hcallee]; rfl, by rw [hcallee]; rfl, rfl, by decide⟩, rfl,
      _, _, by rw [hargs]; rfl, rfl, rfl⟩
  have haccess' : keyedStore.Accesses set .storageSet "AppStorage" "j" :=
    ⟨⟨_, _, by rw [hcallee']; rfl, by rw [hcallee']; rfl, rfl, by decide⟩, rfl,
      _, _, by rw [hargs']; rfl, rfl, rfl⟩
  obtain ⟨k, hk, -, hread⟩ := hkeys _ _ _ _ _ _ (hmade (.inr hreceiver)) haccess
  obtain ⟨j, hj, hwrite, -⟩ := hkeys _ _ _ _ _ _ (hmade' (.inr hreceiver')) haccess'
  obtain ⟨y, hy, -, heq⟩ := hread rfl _ htarget
  obtain ⟨x, hx, hstored⟩ := hwrite rfl (.value ⟨2⟩) (by rw [hargs']; rfl) ⟨_, rfl, rfl⟩
  have hne : k ≠ j := fun hkj => absurd ((hslots _ _ _ _ _ _ hk hj).1 hkj).2 (by decide)
  exact ⟨s, link, set, y, k, j, x, h, hmade (.inr hreceiver), hmade' (.inr hreceiver'), hk, hj, hne,
    hy, heq rfl, hx, hstored, hpoints⟩

end PointsTo
