import PointsTo.Proofs.Analysis.Containers
import PointsTo.Proofs.Analysis.DynamicCalls
import PointsTo.Proofs.Analysis.References

/-! The elements of containers. Methods, index accesses, copies and iterations all meet in the one
slot that a container has for its elements. -/
namespace PointsTo

/-- The positions of the arguments that a method puts into the container. -/
def ApiName.Stores : ApiName → Nat → Prop
  | .arrayPush, _ | .arrayUnshift, _ | .setAdd, _ => True
  | .mapSet, i => i = 1
  | .arrayFill, i => i = 0
  | .arraySplice, i => 2 ≤ i
  | _, _ => False

theorem ApiName.Stores.isContainerWrite {api : ApiName} {i : Nat} (h : api.Stores i) :
    api.isContainerWrite = true := by
  cases api <;> first | rfl | exact h.elim

theorem ApiName.Stores.mem_stored {api : ApiName} {i : Nat} {α : Type} {args : List α} {a : α}
    (h : api.Stores i) (ha : args[i]? = some a) : a ∈ Model.Containers.stored api args := by
  cases api with
  | arrayPush | arrayUnshift | setAdd => exact List.mem_of_getElem? ha
  | mapSet =>
    cases h
    exact List.mem_of_getElem? (i := 0) (by simpa [Model.Containers.stored] using ha)
  | arrayFill =>
    cases h
    exact List.mem_of_getElem? (i := 0) (by simpa [Model.Containers.stored] using ha)
  | arraySplice =>
    have hi : 2 + (i - 2) = i := Nat.add_sub_cancel' h
    refine List.mem_of_getElem? (i := i - 2) ?_
    rw [Model.Containers.stored, List.getElem?_drop, hi, ha]
  | _ => exact h.elim

/-- Fields are told apart by their objects. -/
theorem FlowGraph.Consistent.isField_inj {g : FlowGraph} {scene : Scene} {x y o o' : NodeId}
    {key : FieldKey} (h : g.Consistent scene) (hx : g.IsField x o key) (hy : g.IsField y o' key) :
    x = y ↔ o = o' := by
  constructor
  · rintro rfl
    obtain ⟨a, ha, hlocation⟩ := h.isField_iff.1 hx
    obtain ⟨b, hb, hlocation'⟩ := h.isField_iff.1 hy
    cases Option.some.inj (ha.symm.trans hb)
    rw [hlocation] at hlocation'
    injection hlocation'
  · rintro rfl
    exact hx.unique hy

namespace State

variable {p : Problem} {fuel : Nat} {s : State} {site : StaticSite} {c : ContextId} {o e n : NodeId}
  {kind : Container} {api : ApiName} {a : Node} {call : DynamicSite} {f : FunctionInfo}

/-- All that `m` points to, `n` points to. -/
def Within (s : State) (m n : NodeId) : Prop := ∀ o, s.points.Has m o → s.points.Has n o

/-- What a call of a method of containers does with the slot `e` for the elements. -/
structure MovesElements (p : Problem) (s : State) (api : ApiName) (site : StaticSite)
    (c : ContextId) (e : NodeId) : Prop where
  stored : ∀ i a, api.Stores i → (site.args.getD [])[i]? = some a → a.Carries p.scene →
    ∃ x, s.NodeAt p c a x ∧ s.Within x e
  returned : api = .mapGet ∨ api.isContainerRead = true →
    ∀ target, site.target = some target →
      ∃ y, s.graph.nodeOf? p.scene c target = .ok (some y) ∧ s.Within e y
  copied : api.isContainerCopy = true → ∀ target, site.target = some target → ∃ y array slot,
    s.graph.nodeOf? p.scene c target = .ok (some y) ∧ s.points.Has y array ∧
    s.graph.StandsFor array c (.synthetic (.containerCopy site.id)) ∧
    s.graph.IsContainer array .array ∧ s.graph.IsField slot array .element ∧ s.Within e slot ∧
    (api = .arrayConcat → ∀ a ∈ site.args.getD [], a.Carries p.scene → ∃ x, s.NodeAt p c a x ∧
      ∀ o, s.points.Has x o → ∃ e', s.graph.IsField e' o .element ∧ s.Within e' slot)

/-- The call at the site `k` is resolved to the function `f` with the object `o`, which is called and
has `e` as its first argument, provided that it did not lead back to the caller when the call was
resolved, and that no model takes the call over. -/
def HandsTo (p : Problem) (s : State) (k : SiteId) (call : DynamicSite) (c : ContextId) (o : NodeId)
    (f : MethodId) (e : NodeId) : Prop :=
  (k, c, o) ∈ s.resolved ∧ (∃ t t', s.Resolution p call c o f t t') ∧
  ∀ t t', s.Resolution p call c o f t t' → t.calls.reaches f call.caller = false →
    ∃ j, s.calls.sites.static? j = some (call.resolved j f) ∧
      (s.Unmodelled p (call.resolved j f) (some o) → ∀ formals v,
        p.scene.parameterLocals f = .ok formals → formals[0]? = some (some v) →
        ∃ c' y, s.CalleeContext p j c (some o) f c' ∧ (c', f) ∈ s.instantiated ∧
          s.graph.nodeOf? p.scene c' v = .ok (some y) ∧ s.Within e y)

/-- An iteration over a local function value calls all functions without bound arguments that the
value points to with the elements. It does so under its own context, unless the value is the global
object, which all contexts share. -/
def IteratesWith (p : Problem) (s : State) (site : StaticSite) (c : ContextId) (e : NodeId) :
    Prop :=
  ∀ v name type, (site.args.getD [])[0]? = some (.value v) →
    p.scene.value v = .ok (.var name type) →
    ∃ x k call c₀, s.graph.nodeOf? p.scene c v = .ok (some x) ∧
      s.calls.sites.dynamic? k = some call ∧ call.caller = site.caller ∧
      (name ≠ Name.globalObject → c₀ = c) ∧
      ∀ o a f, s.points.Has x o → s.graph.At o a → a.function? = some f → f.binding = none →
        p.HasBody f.method → s.HandsTo p k call c₀ o f.method e

theorem Finished.within (h : s.Finished p) {x y : NodeId} (hedge : s.graph.Edge x y .copy) :
    s.Within x y := fun _ ho => h.has_of_edge hedge ho

/-- Loads through a node that points to the container take the elements, and writes add to them. -/
theorem Finished.accessesElements (h : s.Finished p) (hs : s.Ordered p) {r : NodeId}
    (hr : s.graph.IsFieldRef r n .element) (ho : s.points.Has n o) :
    (∀ y, s.graph.Edge r y .load → ∃ e, s.graph.IsField e o .element ∧ s.Within e y) ∧
      ∀ x, s.graph.Edge x r .write → ∃ e, s.graph.IsField e o .element ∧ s.Within x e := by
  obtain ⟨hloads, hwrites⟩ := h.served hr ho (hs.points n o ho)
  constructor
  · intro y hy
    obtain ⟨e, he, hedge⟩ := hloads y hy
    exact ⟨e, he, h.within hedge⟩
  · intro x hx
    obtain ⟨e, he, hedge⟩ := hwrites x hx
    exact ⟨e, he, h.within hedge⟩

theorem Finished.spreads (h : s.Finished p) (hs : s.Ordered p) {a : CallArg}
    (hspreads : s.Spreads p c a n) (hcarries : a.Carries p.scene) : ∃ x, s.NodeAt p c a x ∧
      ∀ o, s.points.Has x o → ∃ e, s.graph.IsField e o .element ∧ s.Within e n := by
  obtain ⟨x, d, r, hx, hr, hedge⟩ := hspreads hcarries
  exact ⟨x, hx, fun o ho => (h.accessesElements hs (hs.graph.isFieldRef hr) ho).1 n hedge⟩

theorem Finished.movesElements (h : s.Finished p) (hs : s.Ordered p)
    (hexchanged : s.Exchanged p api site c e) : s.MovesElements p api site c e where
  stored _ a hstores ha hcarries :=
    h.feeds (hexchanged.writes hstores.isContainerWrite a (hstores.mem_stored ha)) hcarries
  returned hread _ htarget := h.delivers (hexchanged.reads (by simpa using hread)) htarget
  copied hcopy target htarget := by
    obtain ⟨y, array, slot, hy, harray, hslot, haddress, hown, hothers⟩ :=
      hexchanged.copies hcopy target htarget
    exact ⟨y, array, slot, hy, h.addresses haddress, harray, hs.graph.isContainer harray, hslot,
      h.within hown, fun hconcat a ha hcarries => h.spreads hs (hothers hconcat a ha) hcarries⟩

/-- The only argument of a call arrives at the first formal of a function without bound
arguments. -/
theorem Finished.within_formal (h : s.Finished p) {call : StaticSite} {c' : ContextId}
    {offset : Nat} {formals : Array (Option ValueId)} {v : ValueId}
    (hwired : s.Wired p call c (some o) c' offset) (hargs : call.args = some [.node e])
    (ha : s.graph.At o a) (hf : a.function? = some f) (hunbound : f.binding = none)
    (hformals : p.scene.parameterLocals call.callee = .ok formals)
    (hv : formals[0]? = some (some v)) :
    ∃ y, s.graph.nodeOf? p.scene c' v = .ok (some y) ∧ s.Within e y := by
  have hoffset : offset = 0 := by
    obtain ⟨b, hb, hoffset⟩ := hwired.applied
    cases Option.some.inj (ha.symm.trans hb)
    rw [hoffset, Node.applied, hf, Option.bind_some, hunbound]
    rfl
  subst hoffset
  obtain ⟨x, y, hx, hy, hedge⟩ := hwired.arguments _ formals hargs hformals 0 (.node e) v rfl
    (by simpa using hv) (by simp) trivial
  cases hx
  exact ⟨y, hy, fun _ ho => h.copies hedge ho⟩

/-- A function that is called at a site made for an iteration has the elements as its first
argument, unless it leads back to the caller or a model takes the call over. -/
theorem handsTo_of_analyze (h : p.analyze fuel = .ok () s) {k : SiteId} {pointer : NodeId}
    (hthrough : s.CallsThrough k pointer [.node e]) (hcall : s.calls.sites.dynamic? k = some call)
    (hregisters : s.graph.Registers pointer (k, c)) (ho : s.points.Has pointer o)
    (ha : s.graph.At o a) (hf : a.function? = some f) (hunbound : f.binding = none)
    (hbody : p.HasBody f.method) : s.HandsTo p k call c o f.method e := by
  have hfinished := Problem.finished_of_analyze h
  obtain ⟨_, hcall', hname, -, hargs⟩ := hthrough
  cases Option.some.inj (hcall'.symm.trans hcall)
  have haccounts := (Problem.reachable_of_analyze h).accounts
  have hd := hfinished.mem_resolved (Problem.kept_of_analyze h).toOrdered hregisters ho
  have hid := hfinished.sites.dynamic_id hcall
  obtain ⟨t, t', hres, -⟩ := haccounts.performed (hid ▸ hcall)
    (.inl ⟨hid ▸ hd, resolvesTo_function hname ha hf⟩)
  refine ⟨hd, ⟨t, t', hres⟩, fun t t' hres hback => ?_⟩
  obtain ⟨j, hj, hwired⟩ := hres.wired hback hbody
  refine ⟨j, hj, fun hmodel formals v hformals hv => ?_⟩
  obtain ⟨c', offset, hc'⟩ := hwired.resolve_left hmodel.not_modelled
  obtain ⟨y, hy, hwithin⟩ := hfinished.within_formal hc' hargs ha hf hunbound hformals hv
  exact ⟨c', y, hc'.selected.calleeContext, hfinished.mem_instantiated hc'.awaited, hy, hwithin⟩

theorem Made.iteratesWith (h : p.analyze fuel = .ok () s) {object : Option NodeId}
    (hmade : s.Made p site c object) (hdecl : p.Declares kind site.signature.name site.callee)
    (hapi : ApiName.of? kind.className site.signature.name = some api)
    (hiter : api.isForEach = true) (hiterates : s.Iterates p site c e) :
    s.IteratesWith p site c e := by
  intro v name type ha hv
  obtain ⟨x, k, hx, hk⟩ := hiterates _ ha ⟨_, hv, rfl⟩
  have hhistory := (Problem.reachable_of_analyze h).accounts.history
  obtain ⟨c₀, call, hown, hregisters, hcall, hcaller⟩ :=
    hhistory.registers hk hmade.static? hdecl hapi hiter ha hv hx
  have hthrough := (Problem.kept_of_analyze h).synthetic _ hk
  exact ⟨x, k, call, c₀, hx, hcall, hcaller, hown, fun o a f ho hat hf hunbound hbody =>
    handsTo_of_analyze h hthrough hcall hregisters ho hat hf hunbound hbody⟩

end State

/-- A container has one slot for its elements. The methods of containers that are called on it, the
index accesses through what points to it and the functions that it is iterated with all use it. -/
theorem Problem.analyze_shares_elements {p : Problem} {fuel : Nat} {s : State} {o : NodeId}
    {kind : Container} (h : p.analyze fuel = .ok () s) (ho : s.graph.IsContainer o kind) :
    (∀ e o' e', s.graph.IsField e o .element → s.graph.IsField e' o' .element →
      (e = e' ↔ o = o')) ∧
    (∀ n i c site m api, s.points.Has n o → s.graph.Registers n (i, c) →
      s.calls.sites.dynamic? i = some site → p.Declares kind site.signature.name m →
      ApiName.of? kind.className site.signature.name = some api →
      ∃ j e, s.calls.sites.static? j = some (site.resolved j m) ∧ s.graph.IsField e o .element ∧
        s.MovesElements p api (site.resolved j m) c e ∧
        (api.isForEach = true → s.IteratesWith p (site.resolved j m) c e)) ∧
    ∀ n r, s.points.Has n o → s.graph.IsFieldRef r n .element →
      (∀ y, s.graph.Edge r y .load → ∃ e, s.graph.IsField e o .element ∧ s.Within e y) ∧
      ∀ x, s.graph.Edge x r .write → ∃ e, s.graph.IsField e o .element ∧ s.Within x e := by
  have hf := finished_of_analyze h
  have hordered := (kept_of_analyze h).toOrdered
  have haccounts := (reachable_of_analyze h).accounts
  refine ⟨fun e o' e' he he' => hf.graph.isField_inj he he', ?_,
    fun n r hn hr => hf.accessesElements hordered hr hn⟩
  intro n i c site m api hn hregisters hsite hdecl hapi
  have hd := hf.mem_resolved hordered hregisters hn
  have hperformed := (haccounts.concluded _ hd).performed site m hsite
    ⟨[m], .head _, s, hdecl.callees ho rfl⟩
  -- Nothing leads back from a method without a body, so that the guard lets the call pass.
  obtain ⟨j, hmade⟩ := hperformed.made haccounts.history.filed hsite hdecl.not_hasBody
  obtain ⟨e, he, hexchanged⟩ := hmade.exchanged ho hdecl hapi
  exact ⟨j, e, hmade.static?, he, hf.movesElements hordered hexchanged,
    fun hiter => hmade.iteratesWith h hdecl hapi hiter (hexchanged.iterates hiter)⟩

namespace State

/-- The call `d` is one of `forEach` on the array `o`, registered at `n`, with the local `v`, whose
node `x` points to the function `m` with the object `g`. -/
def Iteration (p : Problem) (s : State) (d : SiteId × ContextId) (n o : NodeId) (v : ValueId)
    (x g : NodeId) (m : MethodId) : Prop :=
  s.graph.IsContainer o .array ∧ s.points.Has n o ∧ s.graph.Registers n d ∧
    (∃ site, s.calls.sites.dynamic? d.1 = some site ∧ site.signature.name = "forEach" ∧
      site.args = some [.value v]) ∧
    s.graph.nodeOf? p.scene d.2 v = .ok (some x) ∧ s.points.Has x g ∧
    ∃ a, s.graph.At g a ∧ a.function? = some { method := m }

section Decidable

variable {α : Type} {P : α → Prop} [DecidablePred P]

instance (x : Option α) : Decidable (∃ a, x = some a ∧ P a) :=
  decidable_of_iff (x.any fun a => decide (P a)) (by simp [Option.any_eq_true])

instance (g : FlowGraph) (o : NodeId) (kind : Container) : Decidable (g.IsContainer o kind) :=
  inferInstanceAs (Decidable (∃ a, g.nodes[o.index]? = some a ∧ a.container? = some kind))

instance (g : FlowGraph) (n : NodeId) (d : SiteId × ContextId) : Decidable (g.Registers n d) :=
  inferInstanceAs (Decidable (∃ a, g.nodes[n.index]? = some a ∧ ∃ info, a.pointer? = some info ∧
    (d ∈ info.dynamicCalls ∨ d ∈ info.unknownCalls ∨ d ∈ info.instanceCalls)))

instance (p : Problem) (s : State) (d : SiteId × ContextId) (n o : NodeId) (v : ValueId)
    (x g : NodeId) (m : MethodId) : Decidable (s.Iteration p d n o v x g m) :=
  inferInstanceAs (Decidable (_ ∧ _ ∧ _ ∧ _ ∧ _ ∧ _ ∧ ∃ a, s.graph.nodes[g.index]? = some a ∧ _))

end Decidable

end State

/-- `x = new Foo; a = []; f = C.set; a.push(x); a.forEach(f)`, where `C` is a class with the given
name and the body of `set(p)` is `y = new Bar; b = []; g = C.set; b.push(y); b.forEach(g)`. -/
def nestedIteration (owner : String) : Problem where
  scene := {
    files := #[⟨⟨0⟩, "main", ⟨0⟩, ⟨0⟩, ∅, ∅⟩]
    classes := #[⟨⟨0⟩, "Main", none, ⟨0⟩, none, false, ∅⟩,
      ⟨⟨1⟩, Platform.arrayClass, none, ⟨0⟩, none, true,
        ((∅ : NameMap MethodId).insert "push" ⟨2⟩).insert "forEach" ⟨3⟩⟩,
      ⟨⟨2⟩, owner, none, ⟨0⟩, none, false, (∅ : NameMap MethodId).insert "set" ⟨1⟩⟩]
    methods := #[
      plainMethod 0 "main" { stmts := #[⟨0⟩, ⟨1⟩, ⟨2⟩, ⟨3⟩, ⟨4⟩] },
      { plainMethod 1 "set" {
          locals := (∅ : NameMap ValueId).insert "p" ⟨8⟩
          stmts := #[⟨5⟩, ⟨6⟩, ⟨7⟩, ⟨8⟩, ⟨9⟩, ⟨10⟩] } with
        owner := ⟨2⟩, signature := ⟨owner, "set"⟩, params := [.any] },
      { plainMethod 2 "push" {} with
        owner := ⟨1⟩, signature := ⟨Platform.arrayClass, "push"⟩, isStatic := false, body := none },
      { plainMethod 3 "forEach" {} with
        owner := ⟨1⟩, signature := ⟨Platform.arrayClass, "forEach"⟩, isStatic := false,
        body := none }]
    stmts := #[⟨⟨0⟩, .assign ⟨0⟩ ⟨3⟩⟩, ⟨⟨0⟩, .assign ⟨1⟩ ⟨4⟩⟩, ⟨⟨0⟩, .assign ⟨2⟩ ⟨5⟩⟩,
      ⟨⟨0⟩, .call ⟨6⟩⟩, ⟨⟨0⟩, .call ⟨7⟩⟩, ⟨⟨1⟩, .assign ⟨8⟩ ⟨9⟩⟩, ⟨⟨1⟩, .assign ⟨10⟩ ⟨13⟩⟩,
      ⟨⟨1⟩, .assign ⟨11⟩ ⟨4⟩⟩, ⟨⟨1⟩, .assign ⟨12⟩ ⟨5⟩⟩, ⟨⟨1⟩, .call ⟨14⟩⟩, ⟨⟨1⟩, .call ⟨15⟩⟩]
    values := #[.var "x" .any, .var "a" .any, .var "f" .any, .new "Foo", .newArray .any,
      .functionRef ⟨1⟩, .instanceCall ⟨1⟩ ⟨Platform.arrayClass, "push"⟩ [⟨0⟩],
      .instanceCall ⟨1⟩ ⟨Platform.arrayClass, "forEach"⟩ [⟨2⟩], .var "p" .any, .parameter 0 .any,
      .var "y" .any, .var "b" .any, .var "g" .any, .new "Bar",
      .instanceCall ⟨11⟩ ⟨Platform.arrayClass, "push"⟩ [⟨10⟩],
      .instanceCall ⟨11⟩ ⟨Platform.arrayClass, "forEach"⟩ [⟨12⟩]] }

section

variable {owner : String}
  (h : (nestedIteration owner).scene.classNamed? Platform.arrayClass = some ⟨1⟩)
include h

theorem nestedIteration_declares_push : (nestedIteration owner).Declares .array "push" ⟨2⟩ :=
  .mk h rfl rfl rfl rfl rfl rfl rfl rfl

theorem nestedIteration_declares_forEach : (nestedIteration owner).Declares .array "forEach" ⟨3⟩ :=
  .mk h rfl rfl rfl rfl rfl rfl rfl rfl

end

/-- The object of `x` is pushed into the slot for the elements of `a`, and from there the outer
iteration hands it over to the formal `p`. -/
theorem Problem.analyze_shares_elements_nestedIteration :
    ∃ s e x c' y, (nestedIteration "C").analyze 5 = .ok () s ∧ s.graph.IsContainer ⟨2⟩ .array ∧
      s.graph.IsField e ⟨2⟩ .element ∧
      s.graph.nodeOf? (nestedIteration "C").scene .empty ⟨0⟩ = .ok (some x) ∧ s.Within x e ∧
      (c', ⟨1⟩) ∈ s.instantiated ∧
      s.graph.nodeOf? (nestedIteration "C").scene c' ⟨8⟩ = .ok (some y) ∧ s.Within e y ∧
      s.pointsTo (nestedIteration "C").scene ⟨8⟩ = .ok [⟨0⟩] := by
  obtain ⟨_, s, h, hs⟩ := exists_of_endsWith (r := (nestedIteration "C").analyze 5) (q := fun _ s =>
    s.leavesUnmodelled (nestedIteration "C") ⟨4⟩ && decide (
      s.Iteration (nestedIteration "C") (⟨1⟩, .empty) ⟨3⟩ ⟨2⟩ ⟨2⟩ ⟨5⟩ ⟨4⟩ ⟨1⟩ ∧
      s.graph.Registers ⟨3⟩ (⟨0⟩, .empty) ∧
      (∃ site, s.calls.sites.dynamic? ⟨0⟩ = some site ∧ site.signature.name = "push" ∧
        site.args = some [.value ⟨0⟩]) ∧
      (∃ site, s.calls.sites.dynamic? ⟨1⟩ = some site ∧ site.caller = ⟨0⟩) ∧
      s.calls.reaches ⟨1⟩ ⟨0⟩ = false ∧
      s.pointsTo (nestedIteration "C").scene ⟨8⟩ = .ok [⟨0⟩])) (by decide +kernel)
  obtain ⟨hmodel, hs⟩ := Bool.and_eq_true_iff.1 hs
  obtain ⟨⟨hcontainer, ha, hregisters, ⟨site, hsite, hname, hargs⟩, hf, hg, b, hb, hfunction⟩,
    hpushes, ⟨push, hpush, hpushName, hpushArgs⟩, ⟨_, hsite', hcaller⟩, hnever, hpoints⟩ :=
    of_decide_eq_true hs
  cases Option.some.inj (hsite.symm.trans hsite')
  obtain ⟨hslots, hcalls, -⟩ := analyze_shares_elements h hcontainer
  obtain ⟨_, e, -, he, hmoves, -⟩ := hcalls _ _ _ _ ⟨2⟩ .arrayPush ha hpushes hpush
    (hpushName ▸ nestedIteration_declares_push rfl) (hpushName ▸ rfl)
  obtain ⟨x, hx, hstored⟩ := hmoves.stored 0 (.value ⟨0⟩) trivial
    (by simp [DynamicSite.resolved, hpushArgs]) ⟨_, rfl, rfl⟩
  obtain ⟨_, e', -, he', -, hiterates⟩ := hcalls _ _ _ _ ⟨3⟩ .arrayForEach ha hregisters hsite
    (hname ▸ nestedIteration_declares_forEach rfl) (hname ▸ rfl)
  cases (hslots e _ e' he he').2 rfl
  obtain ⟨_, k, call, _, hf', -, hcall, hown, hfunctions⟩ := hiterates rfl ⟨2⟩ "f" .any
    (by simp [DynamicSite.resolved, hargs]) rfl
  cases hown (by decide)
  cases Option.some.inj (Except.ok.inj (hf.symm.trans hf'))
  obtain ⟨-, ⟨t, t', hres⟩, hmoments⟩ := hfunctions _ b _ hg hb hfunction rfl ⟨_, rfl, rfl⟩
  have hcaller : call.caller = ⟨0⟩ := hcall.trans hcaller
  obtain ⟨j, hj, hhands⟩ := hmoments t t' hres (hres.not_reaches (hcaller ▸ hnever))
  obtain ⟨c', y, -, hinstance, hy, hwithin⟩ := hhands
    (State.unmodelled_of_leavesUnmodelled hmodel hj) _ ⟨8⟩ rfl rfl
  exact ⟨s, e, x, c', y, h, hcontainer, he, hx, hstored, hinstance, hy, hwithin, hpoints⟩

/-- An iteration over the array `o` with a local that points to the function `m` does not hand the
element `w` over to the first formal `u` under any context. -/
structure State.Drops (p : Problem) (s : State) (d : SiteId × ContextId) (o g : NodeId)
    (v : ValueId) (m : MethodId) (u : ValueId) (w : NodeId) : Prop where
  called : ∃ n x, s.Iteration p d n o v x g m
  declared : ∃ m', p.Declares .array "forEach" m'
  callback : ∃ name type, p.scene.value v = .ok (.var name type)
  body : p.HasBody m
  formal : ∃ formals, p.scene.parameterLocals m = .ok formals ∧ formals[0]? = some (some u)
  element : s.PartHas o .element w
  lost : ∃ objects, s.pointsTo p.scene u = .ok objects ∧ w ∉ objects

/-- The inner iteration calls `set`, which leads back to itself, and its formal `p` never gets the
object of `y`. If `C` has the name of a store, the call of `set` by the outer iteration is taken for
one of the store, and `p` does not get the object of `x` either. -/
theorem Problem.analyze_drops_elements :
    (∃ s, (nestedIteration "C").analyze 5 = .ok () s ∧
      s.Drops (nestedIteration "C") (⟨7⟩, ⟨1⟩) ⟨10⟩ ⟨12⟩ ⟨12⟩ ⟨1⟩ ⟨8⟩ ⟨8⟩) ∧
    ∃ s, (nestedIteration "AppStorage").analyze 5 = .ok () s ∧
      s.Drops (nestedIteration "AppStorage") (⟨1⟩, .empty) ⟨2⟩ ⟨4⟩ ⟨2⟩ ⟨1⟩ ⟨8⟩ ⟨0⟩ := by
  constructor
  · obtain ⟨_, s, h, hs⟩ := exists_of_endsWith (r := (nestedIteration "C").analyze 5)
      (q := fun _ s => decide (
        s.Iteration (nestedIteration "C") (⟨7⟩, ⟨1⟩) ⟨11⟩ ⟨10⟩ ⟨12⟩ ⟨13⟩ ⟨12⟩ ⟨1⟩ ∧
        s.PartHas ⟨10⟩ .element ⟨8⟩ ∧ s.pointsTo (nestedIteration "C").scene ⟨8⟩ = .ok [⟨0⟩]))
      (by decide +kernel)
    obtain ⟨hcalled, hpart, hpoints⟩ := of_decide_eq_true hs
    exact ⟨s, h, ⟨_, _, hcalled⟩, ⟨_, nestedIteration_declares_forEach rfl⟩, ⟨_, _, rfl⟩,
      ⟨_, rfl, rfl⟩, ⟨_, rfl, rfl⟩, hpart, _, hpoints, by decide⟩
  · obtain ⟨_, s, h, hs⟩ := exists_of_endsWith (r := (nestedIteration "AppStorage").analyze 5)
      (q := fun _ s => decide (
        s.Iteration (nestedIteration "AppStorage") (⟨1⟩, .empty) ⟨3⟩ ⟨2⟩ ⟨2⟩ ⟨5⟩ ⟨4⟩ ⟨1⟩ ∧
        s.PartHas ⟨2⟩ .element ⟨0⟩ ∧ s.pointsTo (nestedIteration "AppStorage").scene ⟨8⟩ = .ok []))
      (by decide +kernel)
    obtain ⟨hcalled, hpart, hpoints⟩ := of_decide_eq_true hs
    exact ⟨s, h, ⟨_, _, hcalled⟩, ⟨_, nestedIteration_declares_forEach rfl⟩, ⟨_, _, rfl⟩,
      ⟨_, rfl, rfl⟩, ⟨_, rfl, rfl⟩, hpart, _, hpoints, by decide⟩

end PointsTo
