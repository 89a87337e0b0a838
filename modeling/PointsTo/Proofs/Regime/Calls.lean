import PointsTo.Proofs.Regime.Basic

/-! Calls with a known callee keep to whatever the basic steps keep to. -/
namespace PointsTo.Regime

variable {p : Problem} (K : Regime p) {s t : State} {site : StaticSite} {c d : ContextId}

/-- The computation keeps to the regime, whatever its result. -/
abbrev Runs {α : Type} (s : State) (m : Run α) : Prop := K.Keeps s m fun _ _ => True

section Basic

variable {K} {α β γ : Type} {m : Run α} {V : State → α → Prop} {W : State → β → Prop}
  {f : α → Run β}

theorem done {a : α} : K.Runs s (Pure.pure a) := K.pure trivial

/-- What follows does not depend on the result. -/
theorem next (h : K.Keeps s m V) (hf : ∀ t a, K.Later s t → K.Keeps t (f a) W) :
    K.Keeps s (m >>= f) W :=
  K.bind h fun t a hl _ => hf t a hl

theorem last {f : α → β} (h : K.Keeps s m V) : K.Runs s (m >>= fun a => Pure.pure (f a)) :=
  next h fun _ _ _ => done

/-- Asks the scene: a well-formed one answers, and `Q` holds of the answer. -/
theorem ask {x : Except Fault α} {Q : α → Prop} (hx : p.scene.WellFormed → K.Strict → Answers x Q)
    (hf : ∀ a, x = .ok a → (K.Strict → Q a) → K.Keeps s (f a) W) : K.Keeps s (liftM x >>= f) W := by
  refine K.lift_bind (fun hstrict => ?_) fun a ha => hf a ha fun hstrict => ?_
  · obtain ⟨a, ha, -⟩ := hx (K.wellFormed hstrict) hstrict
    exact ⟨a, ha⟩
  · obtain ⟨b, hb, hq⟩ := hx (K.wellFormed hstrict) hstrict
    cases ha.symm.trans hb
    exact hq

/-- Nothing follows a failure. -/
theorem fail_bind {e : AnalysisError} (he : p.scene.Admits (.error e)) :
    K.Keeps s (Run.fail e >>= f) W :=
  K.bind (V := fun _ _ => False) (K.fail he) fun _ _ _ h => h.elim

theorem arg_later (hl : K.Later s t) {a : CallArg} (h : K.Arg s a) : K.Arg t a := by
  cases a with
  | value v => exact h
  | node n => exact K.node_later hl h

theorem form_later (hl : K.Later s t) (h : K.Form s site) : K.Form t site :=
  { h with args := fun l hmem x hx => arg_later hl (h.args l hmem x hx) }

theorem mapM {f : γ → Run α} {P : State → γ → Prop} (hP : ∀ s t x, K.Later s t → P s x → P t x)
    (hf : ∀ s x, P s x → K.Runs s (f x)) {l : List γ} (h : ∀ x ∈ l, P s x) :
    K.Runs s (l.mapM f) := by
  induction l generalizing s with
  | nil => exact done
  | cons x l ih =>
    rw [List.mapM_cons]
    refine next (hf s x (h x (.head _))) fun t _ hl => last (ih fun y hy => ?_)
    exact hP s t y hl (h y (.tail _ hy))

end Basic

section Edges

variable {K}

theorem argument {a : CallArg} {stmt : Option StmtId} (ha : K.Arg s a) (hc : K.Context s c)
    (hstmt : ∀ i ∈ stmt, K.Known i) :
    K.Keeps s (Run.argument p a c stmt) fun t n? => ∀ n ∈ n?, K.Node t n := by
  cases a with
  | node n =>
    refine K.pure ?_
    rintro _ ⟨⟩
    exact ha
  | value v =>
    refine ask (fun w h => w.value (ha h)) fun x _ _ => ?_
    split
    · exact K.bind (K.value hc ha hstmt) fun _ _ _ h => K.pure (by simpa using h)
    · exact K.pure (by simp)

theorem argumentAt {index : Nat} (hsite : K.Form s site) (hc : K.Context s c) :
    K.Keeps s (Run.argumentAt p site c index) fun t n? => ∀ n ∈ n?, K.Node t n := by
  unfold Run.argumentAt
  split
  · next a ha => exact argument (hsite.args_getD a (List.mem_of_getElem? ha)) hc hsite.stmt
  · exact K.pure (by simp)

theorem targetNode (hsite : K.Form s site) (hc : K.Context s c) :
    K.Keeps s (Run.targetNode p site c) fun t n? => ∀ n ∈ n?, K.Answers ∧ K.Node t n := by
  unfold Run.targetNode
  split
  · next v hv =>
    have hanswers := hsite.answers v hv
    exact K.bind (K.value hc (hsite.target v hv) hsite.stmt) fun _ _ _ h =>
      K.pure (by simpa using ⟨hanswers, h⟩)
  · exact K.pure (by simp)

end Edges

section Binding

variable {K} {callee : MethodId} {stmt : Option StmtId} {object : Option NodeId}

theorem bindEach {args : List CallArg} {formals : List (Option ValueId)}
    (hargs : ∀ x ∈ args, K.Arg s x) (hformals : ∀ v, some v ∈ formals → K.Known v)
    (hc : K.Context s c) (hd : K.Context s d) (hstmt : ∀ i ∈ stmt, K.Known i) :
    K.Runs s (Run.bindEach p stmt c d args formals) := by
  induction args generalizing formals s with
  | nil => exact done
  | cons a args ih =>
    cases formals with
    | nil => exact done
    | cons formal formals =>
      cases formal with
      | none => exact done
      | some formal =>
        refine K.bind (argument (hargs a (.head _)) hc hstmt) fun t source? hl hsource => ?_
        have hc := K.context_later hl hc
        have hd := K.context_later hl hd
        have hargs : ∀ x ∈ args, K.Arg t x := fun x hx => arg_later hl (hargs x (.tail _ hx))
        have hformals' : ∀ v, some v ∈ formals → K.Known v := fun v hv => hformals v (.tail _ hv)
        cases source? with
        | none => exact ih hargs hformals' hc hd
        | some source =>
          refine K.bind (K.value hd (hformals formal (.head _)) nofun) fun t₁ _ hl₁ htarget => ?_
          refine next (K.flow (by decide) (K.node_later hl₁ (hsource source rfl)) htarget hstmt)
            fun t₂ _ hl₂ => ?_
          refine last (ih (fun x hx => arg_later hl₂ (arg_later hl₁ (hargs x hx))) hformals' ?_ ?_)
          · exact K.context_later hl₂ (K.context_later hl₁ hc)
          · exact K.context_later hl₂ (K.context_later hl₁ hd)

theorem bindArguments {skip offset : Nat} (hsite : K.Form s site) (hcallee : K.Known callee)
    (hc : K.Context s c) (hd : K.Context s d) :
    K.Runs s (Run.bindArguments p site c callee d skip offset) := by
  unfold Run.bindArguments
  split
  · exact done
  next args hargs =>
  refine ask (fun w h => w.parameterLocals (hcallee h)) fun formals _ hformals => ?_
  refine bindEach (fun x hx => ?_) (fun v hv h => ?_) hc hd hsite.stmt
  · exact hsite.args args hargs x (List.mem_of_mem_drop hx)
  · exact hformals h v (List.mem_of_mem_drop hv)

theorem bindReturn {i : StmtId} {target : NodeId} (hi : K.Known i) (hd : K.Context s d)
    (htarget : K.Node s target) : K.Runs s (Run.bindReturn p callee d target i) := by
  refine ask (fun w h => w.stmt (hi h)) fun decl _ hdecl => ?_
  split
  · exact done
  next v hv =>
  have hv : K.Known v := fun h => (hdecl h).returned? v hv
  have hstmt : ∀ j ∈ some i, K.Known j := by
    rintro _ ⟨⟩
    exact hi
  refine ask (fun w h => w.value (hv h)) fun value _ _ => ?_
  split
  · refine K.bind (K.value hd hv hstmt) fun t _ hl hsource => ?_
    exact last (K.flow (by decide) hsource (K.node_later hl htarget) hstmt)
  · exact done
  · exact done
  · exact K.fail ⟨nofun, nofun⟩

theorem bindReturns (hsite : K.Form s site) (hcallee : K.Known callee) (hc : K.Context s c)
    (hd : K.Context s d) : K.Runs s (Run.bindReturns p site c callee d) := by
  refine K.bind (targetNode hsite hc) fun t target? hl htarget => ?_
  cases target? with
  | none => exact done
  | some target =>
    refine ask (fun w h => w.returnStmts (hcallee h)) fun stmts _ hstmts => ?_
    refine last (mapM (P := fun t i => K.Context t d ∧ K.Node t target ∧ K.Known i)
      (fun _ _ _ hl h => ⟨K.context_later hl h.1, K.node_later hl h.2.1, h.2.2⟩)
      (fun _ _ h => bindReturn h.2.2 h.1 h.2.1) fun i hi => ?_)
    exact ⟨K.context_later hl hd, (htarget target rfl).2, fun h => hstmts h i hi⟩

theorem receiverNode (hcallee : K.Known callee) (hbody : p.HasBody callee)
    (hd : K.Context s d) :
    K.Keeps s (Run.receiverNode p callee d) fun t n? => ∀ n ∈ n?, K.Node t n := by
  refine ask (fun w h => w.method (hcallee h)) fun decl hdecl _ => ?_
  split
  · exact K.pure (by simp)
  next hstatic =>
  refine ask (fun w h => w.receiverLocal? (hcallee h)) fun receiver? hlocal hreceiver => ?_
  split
  · refine K.fail ⟨nofun, fun m hm hbinds => ?_⟩
    obtain ⟨decl', hdecl', hbody⟩ := hbody
    cases hdecl.symm.trans hdecl'
    exact hbinds callee decl hdecl (by simpa using hstatic) hbody hlocal
  refine ask (fun w h => w.receiverStmt? (hcallee h)) fun stmt? _ hstmt => ?_
  refine K.bind (K.value hd (fun h => hreceiver h _ rfl) fun i hi h => hstmt h i hi) ?_
  exact fun _ _ _ h => K.pure (by simpa using h)

theorem bindReceiverTo {source : NodeId} (hsource : K.Node s source) (hcallee : K.Known callee)
    (hbody : p.HasBody callee) (hd : K.Context s d) (hstmt : ∀ i ∈ stmt, K.Known i) :
    K.Runs s (Run.bindReceiverTo p source callee d stmt) := by
  refine K.bind (receiverNode hcallee hbody hd) fun t target? hl htarget => ?_
  cases target? with
  | none => exact done
  | some target =>
    exact last (K.flow (by decide) (K.node_later hl hsource) (htarget target rfl) hstmt)

theorem bindReceiverToBase {target : NodeId} (hsite : K.Form s site) (hcallee : K.Known callee)
    (hc : K.Context s c) (htarget : K.Node s target) :
    K.Runs s (Run.bindReceiverToBase p site c callee target) := by
  unfold Run.bindReceiverToBase
  split
  · refine ask (fun w h => w.method (hcallee h)) fun decl _ _ => ?_
    split
    · exact fail_bind ⟨nofun, nofun⟩
    · exact done
  · next v hv =>
    have hv := hsite.receiver v hv
    refine ask (fun w h => w.value (hv h)) fun value _ _ => ?_
    split
    · exact fail_bind ⟨nofun, nofun⟩
    · refine K.bind (K.value hc hv hsite.stmt) fun _ _ hl hsource => ?_
      exact last (K.flow (by decide) hsource (K.node_later hl htarget) hsite.stmt)

theorem bindReceiver (hK : K.Connects) (hsite : K.Form s site) (hcallee : K.Known callee)
    (hbody : p.HasBody callee) (hc : K.Context s c) (ho : ∀ o ∈ object, K.Target s o)
    (hd : K.Context s d) : K.Runs s (Run.bindReceiver p site c object callee d) := by
  refine K.bind (receiverNode hcallee hbody hd) fun t target? hl htarget => ?_
  cases target? with
  | none => exact done
  | some target =>
    have htarget := htarget target rfl
    cases object with
    | none => exact bindReceiverToBase (form_later hl hsite) hcallee (K.context_later hl hc) htarget
    | some o =>
      have ho := K.target_later hl (ho o rfl)
      refine K.bind (hK.object (K.node_of_target ho)) fun t₁ a hl₁ hobject => ?_
      have htarget := K.node_later hl₁ htarget
      split
      · exact last (hK.update htarget (K.target_later hl₁ ho))
      · next f hf =>
        split
        · exact done
        · next n hn =>
          exact last (K.flow (by decide) (hobject.receiver f hf n hn) htarget hsite.stmt)

theorem bindApplied (hK : K.Connects) (ho : ∀ o ∈ object, K.Target s o) (hcallee : K.Known callee)
    (hd : K.Context s d) : K.Runs s (Run.bindApplied p object callee d) := by
  cases object with
  | none => exact done
  | some o =>
    refine K.bind (hK.object (K.node_of_target (ho o rfl))) fun t a hl hobject => ?_
    split
    · exact done
    next b hb =>
    obtain ⟨f, hf, hb⟩ := Option.bind_eq_some_iff.1 hb
    refine K.get_bind ?_
    split
    · exact done
    · next site hsite =>
      exact last (bindArguments (hobject.site f hf b hb site hsite) hcallee
        (hobject.context f hf b hb) (K.context_later hl hd))

/-- The wiring of a call with its callee. -/
theorem wire (hK : K.Connects) (hsite : K.Entry s site) (hc : K.Context s c)
    (ho : ∀ o ∈ object, K.Base s o) : K.Runs s (Run.wire p site c object) := by
  have hform := K.form_of_site (K.site_of_entry hsite)
  have hcallee := hform.callee
  refine ask (fun w h => w.method (hcallee h)) fun decl hdecl _ => ?_
  split
  · exact done
  next hbody =>
  have hbody : p.HasBody site.callee := ⟨decl, hdecl, by simpa using hbody⟩
  rw [← bind_assoc]
  refine K.bind (K.select hsite hbody hc ho) fun t₁ d hl₁ hd => ?_
  have hsite := K.entry_later hl₁ hsite
  have hc := K.context_later hl₁ hc
  have ho : ∀ o ∈ object, K.Target t₁ o := fun o hmem =>
    K.target_of_base (K.base_later hl₁ (ho o hmem))
  refine next (bindApplied hK ho hcallee hd) fun t₂ _ hl₂ => ?_
  have hsite := K.entry_later hl₂ hsite
  have hc := K.context_later hl₂ hc
  have hd := K.context_later hl₂ hd
  have hform := K.form_of_site (K.site_of_entry hsite)
  refine next (bindArguments hform hcallee hc hd) fun t₃ _ hl₃ => ?_
  have hc := K.context_later hl₃ hc
  have hd := K.context_later hl₃ hd
  have hform := form_later hl₃ hform
  refine next (bindReturns hform hcallee hc hd) fun t₄ _ hl₄ => ?_
  have hd := K.context_later hl₄ hd
  refine next (bindReceiver hK (form_later hl₄ hform) hcallee hbody (K.context_later hl₄ hc)
    (fun o hmem => K.target_later hl₄ (K.target_later hl₃ (K.target_later hl₂ (ho o hmem)))) hd)
    fun t₅ _ hl₅ => ?_
  have hsite := K.entry_later hl₅ (K.entry_later hl₄ (K.entry_later hl₃ hsite))
  exact last (K.enter hsite (K.context_later hl₅ hd))

end Binding

end PointsTo.Regime

namespace PointsTo.Model
open Regime

variable {p : Problem} {K : Regime p} {s t : State} {site : StaticSite} {c d : ContextId}
  {api : ApiName}

theorem keeps_constantArgument? (hsite : K.Form s site) : K.Runs s (constantArgument? p site) := by
  unfold constantArgument?
  split
  · next v hv =>
    have hv : K.Known v := hsite.args_getD _ (List.mem_of_head? hv)
    exact ask (fun w h => w.value (hv h)) fun _ _ _ => done
  · exact done

theorem Storage.keeps_connect {storage key : String} (hsite : K.Form s site)
    (hc : K.Context s c) : K.Runs s (Storage.connect p api site c storage key) := by
  have hstmt := hsite.stmt
  refine K.bind K.slot fun t slot hl hslot => ?_
  have hc := K.context_later hl hc
  have hform := form_later hl hsite
  extract_lets start finish read
  have hread : ∀ t new, K.Form t site → K.Context t c → K.Node t slot →
      K.Runs t (read () new) := by
    intro t new hform hc hslot
    dsimp only [read, finish]
    split
    · refine K.bind (targetNode hform hc) fun t₁ target? hl htarget => ?_
      cases target? with
      | none => exact done
      | some target =>
        have htarget := (htarget target rfl).2
        have hslot := K.node_later hl hslot
        refine next (K.flow (by decide) hslot htarget hstmt) fun t₂ _ hl => ?_
        have htarget := K.node_later hl htarget
        split
        · refine next (K.flow (by decide) htarget (K.node_later hl hslot) hstmt) fun t₃ _ hl => ?_
          exact last (K.mark (by simp) (K.node_later hl htarget))
        · exact last (K.mark (by simp) htarget)
    · exact done
  split
  · refine K.bind (argumentAt hform hc) fun t₁ source? hl hsource => ?_
    have hc := K.context_later hl hc
    have hform := form_later hl hform
    have hslot := K.node_later hl hslot
    cases source? with
    | none => exact hread t₁ [] hform hc hslot
    | some source =>
      refine next (K.flow (by decide) (hsource source rfl) hslot hstmt) fun t₂ _ hl => ?_
      exact hread t₂ _ (form_later hl hform) (K.context_later hl hc) (K.node_later hl hslot)
  · exact hread t [] hform hc hslot

theorem Storage.keeps_handle (hsite : K.Form s site) (hc : K.Context s c) :
    K.Runs s (Storage.handle p api site c) := by
  refine ask (fun w h => w.classOfMethod (hsite.callee h)) fun owner _ _ => ?_
  refine next (keeps_constantArgument? hsite) fun t key? hl => ?_
  split
  · exact Storage.keeps_connect (form_later hl hsite) (K.context_later hl hc)
  · exact last (K.note nofun)

namespace Reflection

variable {function : NodeId}

theorem keeps_spread (hsite : K.Form s site) (hc : K.Context s c) (hd : K.Context s d) :
    K.Runs s (spread p site c d) := by
  refine K.bind (argumentAt hsite hc) fun t array? hl harray => ?_
  cases array? with
  | none => exact done
  | some array =>
    refine K.bind (K.fieldRef (harray array rfl)) fun t₁ elements hl₁ helements => ?_
    refine ask (fun w h => w.parameterLocals (hsite.callee h)) fun formals _ hformals => ?_
    refine last (mapM (P := fun t v => K.Context t d ∧ K.Node t elements ∧ K.Known v)
      (fun _ _ _ hl h => ⟨K.context_later hl h.1, K.node_later hl h.2.1, h.2.2⟩)
      (fun t v h => ?_) fun v hv => ?_)
    · refine K.bind (K.value h.1 h.2.2 nofun) fun t₂ _ hl₂ htarget => ?_
      exact last (K.flow (by decide) (K.node_later hl₂ h.2.1) htarget hsite.stmt)
    · refine ⟨K.context_later hl₁ (K.context_later hl hd), helements, fun hstrict => ?_⟩
      exact hformals hstrict v (by simpa using hv)

theorem keeps_invoke {spreads : Bool} (hsite : K.Entry s site) (hc : K.Context s c)
    (hf : K.Base s function) : K.Runs s (invoke p site c function spreads) := by
  have hform := K.form_of_site (K.site_of_entry hsite)
  have hcallee := hform.callee
  have hstmt := hform.stmt
  unfold invoke
  extract_lets callee
  refine ask (fun w h => w.method (hcallee h)) fun decl hdecl _ => ?_
  split
  · exact done
  next hbody =>
  have hbody : p.HasBody site.callee := ⟨decl, hdecl, by simpa using hbody⟩
  rw [← bind_assoc]
  refine K.bind (K.select hsite hbody hc (by simpa using hf))
    fun t d hl hd => ?_
  have hc := K.context_later hl hc
  have hsite := K.entry_later hl hsite
  have hform := K.form_of_site (K.site_of_entry hsite)
  extract_lets finish
  have hfinish : ∀ t₁ args, K.Later t t₁ → K.Runs t₁ (finish args) := by
    intro t₁ args hl₁
    have hc := K.context_later hl₁ hc
    have hd := K.context_later hl₁ hd
    have hform := form_later hl₁ hform
    refine next (bindReturns hform hcallee hc hd) fun t₂ _ hl₂ => ?_
    refine K.bind (argumentAt (form_later hl₂ hform) (K.context_later hl₂ hc))
      fun t₃ source? hl₃ hsource => ?_
    have hd := K.context_later hl₃ (K.context_later hl₂ hd)
    have hsite := K.entry_later hl₃ (K.entry_later hl₂ (K.entry_later hl₁ hsite))
    cases source? with
    | none =>
      refine next done fun t₄ _ hl₄ => ?_
      exact last (K.enter (K.entry_later hl₄ hsite) (K.context_later hl₄ hd))
    | some source =>
      refine next (bindReceiverTo (hsource source rfl) hcallee hbody hd hstmt) fun t₄ _ hl₄ => ?_
      exact last (K.enter (K.entry_later hl₄ hsite) (K.context_later hl₄ hd))
  split
  · exact next (keeps_spread hform hc hd) hfinish
  · exact next (bindArguments hform hcallee hc hd) hfinish

theorem keeps_bind (hsite : K.Site s site) (hc : K.Context s c) (hf : K.Target s function) :
    K.Runs s (bind p site c function) := by
  have hform := K.form_of_site hsite
  refine K.bind (targetNode hform hc) fun t target? hl htarget => ?_
  have hc := K.context_later hl hc
  cases target? with
  | none => exact done
  | some target =>
    refine K.bind (argumentAt (form_later hl hform) hc) fun t₁ receiver? hl₁ hreceiver => ?_
    refine K.bind (K.boundFunction (K.site_later hl₁ (K.site_later hl hsite))
      (K.context_later hl₁ hc) (K.target_later hl₁ (K.target_later hl hf)) hreceiver)
      fun t₂ _ hl₂ hbound => ?_
    obtain ⟨hanswers, htarget⟩ := htarget target rfl
    exact last (K.address hanswers hbound (K.node_later hl₂ (K.node_later hl₁ htarget)) hform.stmt)

theorem keeps_handle (hsite : K.Entry s site) (hc : K.Context s c) (hf : K.Base s function) :
    K.Runs s (handle p api site c function) := by
  unfold handle
  split
  · exact keeps_invoke hsite hc hf
  · exact keeps_invoke hsite hc hf
  · exact keeps_bind (K.site_of_entry hsite) hc (K.target_of_base hf)
  · exact done

end Reflection

/-- A call of a function value on behalf of another call. -/
theorem keeps_callPointer_bind {pointer n : NodeId} {args : List CallArg} (hsite : K.Site s site)
    (hc : K.Context s c) (hp : K.Node s pointer) (ha : ∀ x ∈ args, K.Arg s x) :
    K.Runs s (Run.callPointer site c pointer args >>= fun r =>
      match r with
      | some _ => pure [n]
      | none => pure []) := by
  refine next (K.callPointer hsite hc hp ha) fun t r _ => ?_
  cases r <;> exact done

theorem TaskPool.keeps_handle (hsite : K.Site s site) (hc : K.Context s c) :
    K.Runs s (TaskPool.handle p api site c) := by
  have hform := K.form_of_site hsite
  unfold TaskPool.handle
  split
  · exact done
  next args hargs =>
  refine K.bind (argumentAt hform hc) fun t function? hl hfunction => ?_
  cases function? with
  | none => exact last (K.note nofun)
  | some function =>
    refine keeps_callPointer_bind (K.site_later hl hsite) (K.context_later hl hc)
      (hfunction function rfl) fun x hx => arg_later hl ?_
    exact hform.args args hargs x (List.mem_of_mem_drop hx)

namespace Worker

theorem keeps_isOnHost (hsite : K.Form s site) : K.Runs s (isOnHost p site) :=
  ask (fun w h => w.classOfMethod (hsite.callee h)) fun _ _ _ => done

theorem keeps_ownSlot {direction : Direction} (hsite : K.Form s site) :
    K.Keeps s (ownSlot p site direction) K.Node :=
  ask (fun w h => w.fileOfMethod (hsite.known h).caller) fun _ _ _ => K.slot

theorem keeps_field {direction : Direction} (hsite : K.Form s site) (hc : K.Context s c) :
    K.Keeps s (field p site c direction) fun t n? => ∀ n ∈ n?, K.Node t n := by
  unfold field
  split
  · exact K.bind (K.note nofun) fun _ _ _ _ => K.pure (by simp)
  · next v hv =>
    refine K.bind (K.value hc (hsite.receiver v hv) hsite.stmt) fun t _ hl hbase => ?_
    exact K.bind (K.fieldRef hbase) fun _ _ _ hf => K.pure (by simpa using hf)

theorem keeps_launch {file : FileId} (hsite : K.Site s site) (hc : K.Context s c)
    (hfile : K.Known file) : K.Runs s (launch p site c file) := by
  have hform := K.form_of_site hsite
  have hstmt := hform.stmt
  refine ask (fun w h => w.file (hfile h)) fun script _ hscript => ?_
  rw [← bind_assoc]
  refine next (K.launch hsite fun h => (hscript h).moduleMethod) fun t _ hl => ?_
  have hc := K.context_later hl hc
  have hform := form_later hl hform
  refine K.bind K.slot fun t₁ inbox hl₁ hinbox => ?_
  have hc := K.context_later hl₁ hc
  have hform := form_later hl₁ hform
  refine K.bind K.slot fun t₂ outbox hl₂ houtbox => ?_
  have hc := K.context_later hl₂ hc
  have hform := form_later hl₂ hform
  have hinbox := K.node_later hl₂ hinbox
  refine K.bind (keeps_field hform hc) fun t₃ sent? hl₃ hsent => ?_
  have hc := K.context_later hl₃ hc
  have hform := form_later hl₃ hform
  have houtbox := K.node_later hl₃ houtbox
  extract_lets finish
  have hfinish : ∀ t₄ sent, K.Later t₃ t₄ → K.Runs t₄ (finish sent) := by
    intro t₄ sent hl₄
    refine K.bind (keeps_field (form_later hl₄ hform) (K.context_later hl₄ hc))
      fun t₅ received? hl₅ hreceived => ?_
    cases received? with
    | none => exact next done fun _ _ _ => done
    | some received =>
      exact last (K.flow (by decide) (K.node_later hl₅ (K.node_later hl₄ houtbox))
        (hreceived received rfl) hstmt)
  cases sent? with
  | none => exact next done hfinish
  | some sent =>
    exact next (K.flow (by decide) (hsent sent rfl) (K.node_later hl₃ hinbox) hstmt) hfinish

theorem keeps_start (hsite : K.Site s site) (hc : K.Context s c) : K.Runs s (start p site c) := by
  refine next (keeps_constantArgument? (K.form_of_site hsite)) fun t name? hl => ?_
  split
  · exact last (K.note nofun)
  split
  · exact last (K.note nofun)
  · next hfile =>
    refine keeps_launch (K.site_later hl hsite) (K.context_later hl hc) fun h => ?_
    exact (K.wellFormed h).refs.fileNamed? hfile

theorem keeps_send {channel : NodeId} {kind : EdgeKind} (hk : kind ≠ .address)
    (hsite : K.Form s site) (hc : K.Context s c) (hchannel : K.Node s channel) :
    K.Runs s (send p site c channel kind) := by
  refine K.bind (argumentAt hsite hc) fun t data? hl hdata => ?_
  cases data? with
  | none => exact done
  | some data => exact last (K.flow hk (hdata data rfl) (K.node_later hl hchannel) hsite.stmt)

theorem keeps_post (hsite : K.Form s site) (hc : K.Context s c) : K.Runs s (post p site c) := by
  refine next (keeps_isOnHost hsite) fun t onHost hl => ?_
  have hc := K.context_later hl hc
  have hsite := form_later hl hsite
  split
  · refine K.bind (keeps_field hsite hc) fun t₁ field? hl₁ hfield => ?_
    cases field? with
    | none => exact done
    | some field =>
      exact keeps_send (by decide) (form_later hl₁ hsite) (K.context_later hl₁ hc)
        (hfield field rfl)
  · refine K.bind (keeps_ownSlot hsite) fun t₁ _ hl₁ hslot => ?_
    exact keeps_send (by decide) (form_later hl₁ hsite) (K.context_later hl₁ hc) hslot

theorem keeps_deliver {channel : NodeId} {index : Nat} (hsite : K.Site s site)
    (hc : K.Context s c) (hchannel : K.Node s channel) :
    K.Runs s (deliver p site c channel index) := by
  refine K.bind (argumentAt (K.form_of_site hsite) hc) fun t handler? hl hhandler => ?_
  cases handler? with
  | none => exact last (K.note nofun)
  | some handler =>
    refine keeps_callPointer_bind (K.site_later hl hsite) (K.context_later hl hc)
      (hhandler handler rfl) (List.forall_mem_singleton.2 ?_)
    exact K.node_later hl hchannel

theorem keeps_receive {index : Nat} (hsite : K.Site s site) (hc : K.Context s c) :
    K.Runs s (receive p site c index) := by
  have hform := K.form_of_site hsite
  have hstmt := hform.stmt
  refine next (keeps_isOnHost hform) fun t onHost hl => ?_
  have hc := K.context_later hl hc
  have hform := form_later hl hform
  have hsite := K.site_later hl hsite
  split
  · split
    · exact last (K.note nofun)
    next hi =>
    refine K.bind (keeps_field hform hc) fun t₁ field? hl₁ hfield => ?_
    have hc := K.context_later hl₁ hc
    cases field? with
    | none => exact done
    | some field =>
      refine K.bind (K.temporary hc (hstmt _ hi)) fun t₂ _ hl₂ hreceived => ?_
      refine next (K.flow (by decide) (K.node_later hl₂ (hfield field rfl)) hreceived (hi ▸ hstmt))
        fun t₃ _ hl₃ => ?_
      have hsite := K.site_later hl₃ (K.site_later hl₂ (K.site_later hl₁ hsite))
      exact last (keeps_deliver hsite (K.context_later hl₃ (K.context_later hl₂ hc))
        (K.node_later hl₃ hreceived))
  · refine K.bind (keeps_ownSlot hform) fun t₁ _ hl₁ hslot => ?_
    exact keeps_deliver (K.site_later hl₁ hsite) (K.context_later hl₁ hc) hslot

theorem keeps_handle (hsite : K.Site s site) (hc : K.Context s c) :
    K.Runs s (handle p api site c) := by
  unfold handle
  split
  · exact keeps_start hsite hc
  · exact keeps_post (K.form_of_site hsite) hc
  · exact keeps_receive hsite hc
  · exact keeps_receive hsite hc
  · exact keeps_receive hsite hc
  · exact done

end Worker

namespace Sdk

theorem keeps_isCallback {a : CallArg} (ha : K.Arg s a) : K.Runs s (isCallback p a) := by
  cases a with
  | node _ => exact done
  | value v =>
    refine ask (fun w h => w.value (ha h)) fun value _ _ => ?_
    split <;> exact done

theorem keeps_answer (hsite : K.Site s site) (hc : K.Context s c) :
    K.Runs s (answer p site c) := by
  have hform := K.form_of_site hsite
  refine ask (fun w h => w.method (hform.callee h)) fun decl _ _ => ?_
  split
  · next v _ hv _ =>
    refine K.bind (K.synthetic (.inl rfl) hsite hc) fun t _ hl hobject => ?_
    refine K.bind (K.value (K.context_later hl hc) (hform.target v hv) hform.stmt)
      fun t₁ _ hl₁ htarget => ?_
    exact K.address (hform.answers v hv) (K.target_later hl₁ hobject) htarget hform.stmt
  · exact done

theorem keeps_callBack {a : CallArg} (hsite : K.Site s site) (hc : K.Context s c)
    (ha : K.Arg s a) : K.Runs s (callBack p site c a) := by
  refine next (keeps_isCallback ha) fun t callback hl => ?_
  have hc := K.context_later hl hc
  have hsite := K.site_later hl hsite
  split
  · exact done
  refine K.bind (argument (arg_later hl ha) hc (K.form_of_site hsite).stmt)
    fun t₁ callback? hl₁ hcallback => ?_
  cases callback? with
  | none => exact done
  | some callback =>
    have hcallback := hcallback callback rfl
    refine next (K.mark (by simp) hcallback) fun t₂ _ hl₂ => ?_
    exact keeps_callPointer_bind (K.site_later hl₂ (K.site_later hl₁ hsite))
      (K.context_later hl₂ (K.context_later hl₁ hc)) (K.node_later hl₂ hcallback) (by simp)

theorem keeps_handle (hsite : K.Site s site) (hc : K.Context s c) :
    K.Runs s (handle p site c) := by
  refine next (keeps_answer hsite hc) fun t _ hl => ?_
  have hsite := K.site_later hl hsite
  refine last (mapM (P := fun t a => K.Site t site ∧ K.Context t c ∧ K.Arg t a)
    (fun _ _ _ hl h => ⟨K.site_later hl h.1, K.context_later hl h.2.1, arg_later hl h.2.2⟩)
    (fun _ _ h => keeps_callBack h.1 h.2.1 h.2.2) fun a ha => ?_)
  exact ⟨hsite, K.context_later hl hc, (K.form_of_site hsite).args_getD a ha⟩

end Sdk

namespace Containers

variable {element : NodeId}

theorem mem_of_stored {α : Type} {l : List α} {x : α} (h : x ∈ stored api l) : x ∈ l := by
  unfold stored at h
  split at h
  · exact List.mem_of_mem_take (List.mem_of_mem_drop h)
  · exact List.mem_of_mem_take h
  · exact List.mem_of_mem_drop h
  · exact h

/-- One step for each argument, under the caller's context and with a node at hand. -/
theorem keeps_arguments {α : Type} {f : CallArg → Run α} {n : NodeId} {args : List CallArg}
    (hf : ∀ s a, K.Context s c → K.Node s n → K.Arg s a → K.Runs s (f a)) (hc : K.Context s c)
    (hn : K.Node s n) (hargs : ∀ a ∈ args, K.Arg s a) : K.Runs s (args.mapM f) :=
  mapM (P := fun t a => K.Context t c ∧ K.Node t n ∧ K.Arg t a)
    (fun _ _ _ hl h => ⟨K.context_later hl h.1, K.node_later hl h.2.1, arg_later hl h.2.2⟩)
    (fun s a h => hf s a h.1 h.2.1 h.2.2) fun a ha => ⟨hc, hn, hargs a ha⟩

theorem keeps_write (hsite : K.Form s site) (hc : K.Context s c) (helement : K.Node s element) :
    K.Runs s (write p api site c element) := by
  refine last (keeps_arguments (fun t a hc helement ha => ?_) hc helement fun a ha =>
    hsite.args_getD a (mem_of_stored ha))
  refine K.bind (argument ha hc hsite.stmt) fun t₁ source? hl hsource => ?_
  cases source? with
  | none => exact done
  | some source =>
    exact last (K.flow (by decide) (hsource source rfl) (K.node_later hl helement) hsite.stmt)

theorem keeps_read (hsite : K.Form s site) (hc : K.Context s c) (helement : K.Node s element) :
    K.Runs s (read p site c element) := by
  refine K.bind (targetNode hsite hc) fun t target? hl htarget => ?_
  cases target? with
  | none => exact done
  | some target =>
    exact last (K.flow (by decide) (K.node_later hl helement) (htarget target rfl).2 hsite.stmt)

theorem keeps_copy (hsite : K.Site s site) (hc : K.Context s c) (helement : K.Node s element) :
    K.Runs s (copy p api site c element) := by
  have hform := K.form_of_site hsite
  have hstmt := hform.stmt
  refine K.bind (targetNode hform hc) fun t target? hl htarget => ?_
  have hc := K.context_later hl hc
  have helement := K.node_later hl helement
  cases target? with
  | none => exact done
  | some target =>
    obtain ⟨hanswers, htarget⟩ := htarget target rfl
    refine K.bind (K.synthetic (.inr ⟨rfl, rfl⟩) (K.site_later hl hsite) hc)
      fun t₁ array hl₁ harray => ?_
    refine K.bind (K.element harray) fun t₂ slot hl₂ hslot => ?_
    have hl₂' := fun {n} (h : K.Node t n) => K.node_later hl₂ (K.node_later hl₁ h)
    refine next (K.address hanswers (K.target_later hl₂ harray) (hl₂' htarget) hstmt)
      fun t₃ _ hl₃ => ?_
    have hslot := K.node_later hl₃ hslot
    refine next (K.flow (by decide) (K.node_later hl₃ (hl₂' helement)) hslot hstmt)
      fun t₄ _ hl₄ => ?_
    have hc := K.context_later hl₄ (K.context_later hl₃ (K.context_later hl₂
      (K.context_later hl₁ hc)))
    have hform := form_later hl₄ (form_later hl₃ (form_later hl₂ (form_later hl₁
      (form_later hl hform))))
    split
    · exact done
    refine last (keeps_arguments (fun t a hc hslot ha => ?_) hc (K.node_later hl₄ hslot)
      hform.args_getD)
    refine K.bind (argument ha hc hstmt) fun t₅ other? hl₅ hother => ?_
    cases other? with
    | none => exact done
    | some other =>
      refine K.bind (K.fieldRef (hother other rfl)) fun t₆ _ hl₆ helements => ?_
      exact last (K.flow (by decide) helements (K.node_later hl₆ (K.node_later hl₅ hslot)) hstmt)

theorem keeps_forEach (hsite : K.Site s site) (hc : K.Context s c) (helement : K.Node s element) :
    K.Runs s (forEach p site c element) := by
  refine K.bind (argumentAt (K.form_of_site hsite) hc) fun t callback? hl hcallback => ?_
  cases callback? with
  | none => exact last (K.note nofun)
  | some callback =>
    refine keeps_callPointer_bind (K.site_later hl hsite) (K.context_later hl hc)
      (hcallback callback rfl) (List.forall_mem_singleton.2 ?_)
    exact K.node_later hl helement

theorem keeps_handle {container : NodeId} (hsite : K.Site s site) (hc : K.Context s c)
    (hcontainer : K.Target s container) : K.Runs s (handle p api site c container) := by
  refine K.bind (K.element hcontainer) fun t _ hl helement => ?_
  have hc := K.context_later hl hc
  have hsite := K.site_later hl hsite
  have hform := K.form_of_site hsite
  split
  · exact keeps_write hform hc helement
  split
  · exact keeps_read hform hc helement
  split
  · exact keeps_copy hsite hc helement
  split
  · exact keeps_forEach hsite hc helement
  · exact done

end Containers

section Choice

variable {object : Option NodeId}

theorem keeps_apiOf? {callee : MethodId} (hcallee : K.Known callee) :
    K.Runs s (apiOf? p callee) :=
  ask (fun w h => w.method (hcallee h)) fun _ _ _ =>
    ask (fun w h => w.classOfMethod (hcallee h)) fun _ _ _ => done

theorem keeps_reflective? (ho : ∀ o ∈ object, K.Target s o) :
    K.Runs s (reflective? site object) := by
  cases object with
  | none => exact done
  | some o =>
    refine next (K.node (K.node_of_target (ho o rfl))) fun t a _ => ?_
    split <;> exact done

theorem keeps_containerApi? (ho : ∀ o ∈ object, K.Target s o) :
    K.Runs s (containerApi? site object) := by
  cases object with
  | none => exact done
  | some o =>
    refine next (K.node (K.node_of_target (ho o rfl))) fun t a _ => ?_
    split <;> exact done

theorem keeps_accepts {m : Model} (hsite : K.Form s site) (ho : ∀ o ∈ object, K.Target s o) :
    K.Runs s (accepts p site object m) := by
  cases m with
  | storage | taskPool | worker => exact last (keeps_apiOf? hsite.callee)
  | reflection => exact last (keeps_reflective? ho)
  | sdk =>
    exact ask (fun w h => w.method (hsite.callee h)) fun _ _ _ =>
      ask (fun w h => w.classOfMethod (hsite.callee h)) fun _ _ _ => done
  | container => exact last (keeps_containerApi? ho)

theorem keeps_find? (hsite : K.Form s site) (ho : ∀ o ∈ object, K.Target s o) :
    K.Runs s (find? p site object) := by
  unfold find?
  induction all generalizing s with
  | nil => exact done
  | cons m ms ih =>
    refine next (keeps_accepts hsite ho) fun t accepted hl => ?_
    split
    · exact done
    · exact ih (form_later hl hsite) fun o hmem => K.target_later hl (ho o hmem)

/-- What is stored does not depend on callees. -/
theorem keeps_handle_storage (object : Option NodeId) (hform : K.Form s site)
    (hc : K.Context s c) : K.Runs s (handle p site c object .storage) := by
  refine next (keeps_apiOf? hform.callee) fun t api? hl => ?_
  cases api? with
  | none => exact done
  | some api => exact Storage.keeps_handle (form_later hl hform) (K.context_later hl hc)

/-- A call that a model takes over. -/
theorem keeps_handle {m : Model} (hsite : K.Entry s site) (hc : K.Context s c)
    (ho : ∀ o ∈ object, K.Base s o) : K.Runs s (handle p site c object m) := by
  have hform := K.form_of_site (K.site_of_entry hsite)
  have htarget : ∀ o ∈ object, K.Target s o := fun o hmem => K.target_of_base (ho o hmem)
  unfold handle
  cases m with
  | sdk => exact Sdk.keeps_handle (K.site_of_entry hsite) hc
  | reflection =>
    refine next (keeps_reflective? htarget) fun t api? hl => ?_
    split
    · exact Reflection.keeps_handle (K.entry_later hl hsite) (K.context_later hl hc)
        (K.base_later hl (ho _ rfl))
    · exact done
  | container =>
    refine next (keeps_containerApi? htarget) fun t api? hl => ?_
    split
    · exact Containers.keeps_handle (K.site_later hl (K.site_of_entry hsite))
        (K.context_later hl hc) (K.target_later hl (htarget _ rfl))
    · exact done
  | storage => exact keeps_handle_storage object hform hc
  | taskPool =>
    refine next (keeps_apiOf? hform.callee) fun t api? hl => ?_
    cases api? with
    | none => exact done
    | some api =>
      exact TaskPool.keeps_handle (K.site_later hl (K.site_of_entry hsite)) (K.context_later hl hc)
  | worker =>
    refine next (keeps_apiOf? hform.callee) fun t api? hl => ?_
    cases api? with
    | none => exact done
    | some api =>
      exact Worker.keeps_handle (K.site_later hl (K.site_of_entry hsite)) (K.context_later hl hc)

end Choice

end PointsTo.Model

namespace PointsTo.Regime

variable {p : Problem} {K : Regime p} {s : State} {site : StaticSite} {c : ContextId}
  {object : Option NodeId}

/-- A call keeps to what the basic steps keep to. -/
theorem Connects.call (hK : K.Connects) (hsite : K.Entry s site) (hc : K.Context s c) (ho : ∀ o ∈ object, K.Base s o) :
    K.Runs s (Run.call p site c object) := by
  have hform := K.form_of_site (K.site_of_entry hsite)
  refine next (Model.keeps_find? hform fun o hmem => K.target_of_base (ho o hmem))
    fun t model? hl => ?_
  have hsite := K.entry_later hl hsite
  have hc := K.context_later hl hc
  have ho : ∀ o ∈ object, K.Base t o := fun o hmem => K.base_later hl (ho o hmem)
  cases model? with
  | none => exact wire hK hsite hc ho
  | some m => exact Model.keeps_handle hsite hc ho

end PointsTo.Regime
