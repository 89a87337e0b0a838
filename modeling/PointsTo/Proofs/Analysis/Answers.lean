import PointsTo.Proofs.Analysis.Wired
import PointsTo.Proofs.Summary.Determined

/-! What an analysis asks about an object has the same answer for an object of the same shape, and so
at any later time. -/
namespace PointsTo

/-- Both states are the given ones, up to their notices. -/
def State.Alike (s s' t t' : State) : Prop :=
  (∃ log, t = { s with log }) ∧ ∃ log, t' = { s' with log }

theorem State.Alike.refl (s s' : State) : State.Alike s s' s s' := ⟨⟨s.log, rfl⟩, s'.log, rfl⟩

/-- Two nodes have one shape. -/
def State.LooksLike (s s' : State) (o o' : NodeId) : Prop :=
  ∃ a a', s.graph.At o a ∧ s'.graph.At o' a' ∧ a'.kind.shape = a.kind.shape

/-- Two calls are made on objects of one shape, or both on none. -/
def State.LooksLike? (s s' : State) : Option NodeId → Option NodeId → Prop
  | none, none => True
  | some o, some o' => s.LooksLike s' o o'
  | _, _ => False

theorem State.LooksLike?.cases {s s' : State} {object object' : Option NodeId}
    (h : s.LooksLike? s' object object') :
    object = none ∧ object' = none ∨
      ∃ o o', object = some o ∧ object' = some o' ∧ s.LooksLike s' o o' := by
  cases object with
  | none =>
    cases object' with
    | none => exact .inl ⟨rfl, rfl⟩
    | some o' => exact h.elim
  | some o =>
    cases object' with
    | none => exact h.elim
    | some o' => exact .inr ⟨o, o', rfl, rfl, h⟩

theorem State.Retains.looksLike {p : Problem} {s s' : State} (hr : s.Retains p s') {o : NodeId}
    (ho : o.index < s.graph.nodes.size) : s.LooksLike s' o o := by
  have ha : s.graph.At o _ := Array.getElem?_eq_getElem ho
  obtain ⟨a', ha', hk⟩ := hr.graph.nodes o _ ha
  exact ⟨_, a', ha, ha', hk.shape⟩

theorem State.Retains.looksLike? {p : Problem} {s s' : State} (hr : s.Retains p s')
    {object : Option NodeId} (ho : ∀ o ∈ object, o.index < s.graph.nodes.size) :
    s.LooksLike? s' object object := by
  cases object with
  | none => trivial
  | some o => exact hr.looksLike (ho o rfl)

namespace Run
open State

variable {p : Problem} {s s' : State} {α β : Type}

theorem agrees_scan {q : Scan α} (h : Agrees (fun _ _ => True) q q) :
    Agrees (Alike s s') (scan q) (scan q) := by
  rintro t t' ⟨⟨log, rfl⟩, log', rfl⟩
  rcases h log log' trivial with ⟨a, l, l', hq, hq', -⟩ | ⟨e, l, l', hq, hq'⟩
  · exact .inl ⟨a, { s with log := l }, { s' with log := l' }, by simp [scan, hq],
      by simp [scan, hq'], ⟨l, rfl⟩, l', rfl⟩
  · exact .inr ⟨.fault e, { s with log := l }, { s' with log := l' },
      by simp [scan, hq], by simp [scan, hq']⟩

theorem agrees_lift (x : Except Fault α) :
    Agrees (Alike s s') (liftM x : Run α) (liftM x : Run α) :=
  agrees_scan (Scene.agrees_ask x)

/-- What is asked about a node depends on its shape. -/
theorem agrees_node_bind {o o' : NodeId} {f f' : Node → Run β} (ho : s.LooksLike s' o o')
    (h : ∀ a a', a'.kind.shape = a.kind.shape → Agrees (Alike s s') (f a) (f' a')) :
    Agrees (Alike s s') (node o >>= f) (node o' >>= f') := by
  rintro t t' ⟨⟨log, rfl⟩, log', rfl⟩
  obtain ⟨a, a', ha, ha', hk⟩ := ho
  have hnode : ∀ (t : State) (o : NodeId) (a : Node), t.graph.At o a → node o t = .ok a t := by
    intro t o a ha
    simp [node, grow, Growing.node, FlowGraph.node, Ref.fetch_eq_ok_iff.2 ha]
  simp only [Bind.bind, EStateM.bind, hnode { s with log } o _ ha,
    hnode { s' with log := log' } o' _ ha']
  exact h _ a' hk _ _ ⟨⟨log, rfl⟩, log', rfl⟩

end Run

namespace Model
open State Run

variable {p : Problem} {s s' : State} {site site' : StaticSite} {object object' : Option NodeId}

theorem agrees_apiOf? {callee : MethodId} :
    Agrees (Alike s s') (apiOf? p callee) (apiOf? p callee) :=
  .bind (agrees_lift _) fun _ => .bind (agrees_lift _) fun _ => .pure _

theorem agrees_accepts (hcallee : site'.callee = site.callee)
    (hsignature : site'.signature = site.signature) (ho : s.LooksLike? s' object object')
    {m : Model} : Agrees (Alike s s') (accepts p site object m) (accepts p site' object' m) := by
  cases m with
  | storage | taskPool | worker =>
    refine .bind ?_ fun _ => .pure _
    rw [hcallee]
    exact agrees_apiOf?
  | sdk =>
    unfold accepts isGeneral
    rw [hcallee]
    exact .bind (agrees_lift _) fun _ => .bind (agrees_lift _) fun _ => .pure _
  | reflection =>
    refine .bind ?_ fun _ => .pure _
    obtain ⟨rfl, rfl⟩ | ⟨o, o', rfl, rfl, hlike⟩ := ho.cases
    · exact .pure none
    · refine agrees_node_bind hlike fun a a' hk => ?_
      rw [Node.isFunction, Node.isFunction, (Node.eq_of_shape hk).2.2.1, hsignature]
      split <;> exact .pure _
  | container =>
    refine .bind ?_ fun _ => .pure _
    obtain ⟨rfl, rfl⟩ | ⟨o, o', rfl, rfl, hlike⟩ := ho.cases
    · exact .pure none
    · refine agrees_node_bind hlike fun a a' hk => ?_
      rw [(Node.eq_of_shape hk).2.2.2.2, hsignature]
      split <;> exact .pure _

/-- Whether a model takes over a call depends on its callee, its signature and its object. -/
theorem agrees_find? (hcallee : site'.callee = site.callee)
    (hsignature : site'.signature = site.signature) (ho : s.LooksLike? s' object object') :
    Agrees (Alike s s') (find? p site object) (find? p site' object') := by
  unfold find?
  induction all with
  | nil => exact .pure none
  | cons m ms ih =>
    refine .bind (agrees_accepts hcallee hsignature ho) fun accepted => ?_
    split
    · exact .pure _
    · exact ih

end Model

namespace Run
open State

variable {p : Problem} {s s' : State} {site : DynamicSite} {o o' : NodeId}

theorem agrees_callbackOf {a : CallArg} :
    Agrees (Alike s s') (callbackOf p a) (callbackOf p a) := by
  unfold callbackOf
  split
  · exact .pure none
  refine .bind (agrees_lift _) fun value => ?_
  split
  · exact .pure _
  refine .bind (agrees_lift _) fun type => ?_
  split <;> exact .pure _

theorem agrees_calleesByClass {owner : Option String} :
    Agrees (Alike s s') (calleesByClass p site owner) (calleesByClass p site owner) := by
  refine .bind ?_ fun callee? => ?_
  · unfold classCallee
    split
    · exact agrees_scan (Scene.agrees_dispatch _ _ _)
    · exact .pure none
  split
  · exact .pure _
  split
  · exact .pure _
  split
  · exact .pure []
  · exact .bind (.mapM fun _ => agrees_callbackOf) fun _ => .pure _

theorem agrees_callees (ho : s.LooksLike s' o o') :
    Agrees (Alike s s') (callees p site o) (callees p site o') := by
  refine agrees_node_bind ho fun a a' hk => ?_
  rw [(Node.eq_of_shape hk).2.2.1, (Node.eq_of_shape hk).2.2.2.1]
  split
  · split
    · exact .pure _
    · exact agrees_calleesByClass
  · exact agrees_calleesByClass

end Run

namespace State

variable {p : Problem} {s s' : State} {site : StaticSite} {object : Option NodeId}

/-- No model takes over a call. -/
def Unmodelled (p : Problem) (s : State) (site : StaticSite) (object : Option NodeId) : Prop :=
  ∃ t, Model.find? p site object s = .ok none t

/-- Some model takes over a call. -/
def Modelled (p : Problem) (s : State) (site : StaticSite) (object : Option NodeId) : Prop :=
  ∃ model t, Model.find? p site object s = .ok (some model) t

theorem Unmodelled.not_modelled (h : s.Unmodelled p site object) : ¬ s.Modelled p site object := by
  rintro ⟨model, t, hfind⟩
  obtain ⟨t', hnone⟩ := h
  rw [hfind] at hnone
  cases hnone

/-- A call on an object runs a method. -/
def ResolvesTo (p : Problem) (s : State) (site : DynamicSite) (o : NodeId)
    (callee : MethodId) : Prop :=
  ∃ found, callee ∈ found ∧ ∃ t, Run.callees p site o s = .ok found t

theorem Retains.modelled_iff (hr : s.Retains p s')
    (ho : ∀ o ∈ object, o.index < s.graph.nodes.size) :
    s.Modelled p site object ↔ s'.Modelled p site object :=
  exists_congr fun _ => (Model.agrees_find? rfl rfl (hr.looksLike? ho)).answers_iff (.refl s s')

theorem Retains.resolvesTo_iff (hr : s.Retains p s') {site : DynamicSite} {o : NodeId}
    (ho : o.index < s.graph.nodes.size) {callee : MethodId} :
    s.ResolvesTo p site o callee ↔ s'.ResolvesTo p site o callee := by
  simp only [ResolvesTo, (Run.agrees_callees (hr.looksLike ho)).answers_iff (.refl s s')]

end State

end PointsTo
