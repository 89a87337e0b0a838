import PointsTo.Proofs.Analysis.Extent
import PointsTo.Proofs.Call.Positions

/-! What the steps of an analysis keep to, and which of the basic steps have to be looked at to show
that calls keep to it, too. -/
namespace PointsTo

/-- What holds of the nodes, contexts and calls that come up in a state. -/
structure Traits (scene : Scene) where
  /-- Whether the positions of the scene that come up have to exist. -/
  Strict : Prop
  /-- Whether calls may give objects to their targets. -/
  Answers : Prop
  Node : State → NodeId → Prop
  /-- Objects. -/
  Target : State → NodeId → Prop
  /-- Objects that calls are dispatched on. -/
  Base : State → NodeId → Prop
  Context : State → ContextId → Prop
  /-- Calls that may be made. -/
  Site : State → StaticSite → Prop
  /-- Calls whose callees may be entered. -/
  Entry : State → StaticSite → Prop

namespace Traits

variable {scene : Scene} (T : Traits scene) (s : State)

/-- A position of the scene that may come up. -/
abbrev Known {t : Table} (r : Ref t) : Prop := T.Strict → scene.Has t r

def Arg : CallArg → Prop
  | .value v => T.Known v
  | .node n => T.Node s n

/-- What holds of every call, whether it may be made or not. -/
structure Form (a : StaticSite) : Prop where
  args : ∀ l ∈ a.args, ∀ x ∈ l, T.Arg s x
  known : T.Strict → a.Refs scene.Knows
  answers : ∀ v ∈ a.target, T.Answers

/-- A node that calls can be made on. -/
structure Object (a : PointsTo.Node) : Prop where
  receiver : ∀ f ∈ a.function?, ∀ n ∈ f.receiver, T.Node s n
  context : ∀ f ∈ a.function?, ∀ b ∈ f.binding, T.Context s b.context
  site : ∀ f ∈ a.function?, ∀ b ∈ f.binding, ∀ site ∈ s.calls.sites.static? b.site, T.Form s site

variable {T s} {a : StaticSite}

theorem Form.args_getD (h : T.Form s a) : ∀ x ∈ a.args.getD [], T.Arg s x := by
  have hargs := h.args
  revert hargs
  cases a.args with
  | none => exact fun _ => by simp
  | some l => exact fun hargs => hargs l rfl

theorem Form.stmt (h : T.Form s a) : ∀ i ∈ a.stmt, T.Known i :=
  fun i hi hstrict => (h.known hstrict).stmt i hi

theorem Form.target (h : T.Form s a) : ∀ v ∈ a.target, T.Known v :=
  fun v hv hstrict => (h.known hstrict).target v hv

theorem Form.receiver (h : T.Form s a) : ∀ v ∈ a.receiver, T.Known v :=
  fun v hv hstrict => (h.known hstrict).receiver v hv

theorem Form.callee (h : T.Form s a) : T.Known a.callee :=
  fun hstrict => (h.known hstrict).callee

section All

/-! Where nothing is asked of nodes and contexts. -/

variable (hstrict : ¬ T.Strict) (hnode : ∀ n, T.Node s n)
include hstrict hnode

theorem Form.of_all (hanswers : ∀ v ∈ a.target, T.Answers) : T.Form s a := by
  refine ⟨fun l _ x _ => ?_, fun h => absurd h hstrict, hanswers⟩
  cases x with
  | value v => exact fun h => absurd h hstrict
  | node n => exact hnode n

theorem Object.of_all (hanswers : T.Answers) (hcontext : ∀ c, T.Context s c)
    (b : PointsTo.Node) : T.Object s b :=
  ⟨fun _ _ n _ => hnode n, fun _ _ b _ => hcontext b.context, fun _ _ _ _ _ _ =>
    .of_all hstrict hnode fun _ _ => hanswers⟩

end All

end Traits

/-- For regimes that are strict about nothing. -/
theorem Problem.wellFormed_of_false {p : Problem} (h : False) : p.scene.WellFormed := h.elim

/-- What the steps of an analysis keep to: `Keeps s m V` says that the computation `m` does so from
`s` on, and that `V` holds of its result in the state in which it ends. -/
structure Regime (p : Problem) extends Traits p.scene where
  wellFormed : Strict → p.scene.WellFormed
  Keeps : ∀ {α : Type}, State → Run α → (State → α → Prop) → Prop
  /-- A state that such a computation leads to. -/
  Later : State → State → Prop
  node_later : ∀ {s t n}, Later s t → Node s n → Node t n
  target_later : ∀ {s t n}, Later s t → Target s n → Target t n
  base_later : ∀ {s t n}, Later s t → Base s n → Base t n
  context_later : ∀ {s t c}, Later s t → Context s c → Context t c
  site_later : ∀ {s t a}, Later s t → Site s a → Site t a
  entry_later : ∀ {s t a}, Later s t → Entry s a → Entry t a
  node_of_target : ∀ {s n}, Target s n → Node s n
  target_of_base : ∀ {s n}, Base s n → Target s n
  form_of_site : ∀ {s a}, Site s a → toTraits.Form s a
  site_of_entry : ∀ {s a}, Entry s a → Site s a
  pure : ∀ {α : Type} {s} {a : α} {V}, V s a → Keeps s (Pure.pure a) V
  bind : ∀ {α β : Type} {s} {m : Run α} {f : α → Run β} {V W}, Keeps s m V →
    (∀ t a, Later s t → V t a → Keeps t (f a) W) → Keeps s (m >>= f) W
  get_bind : ∀ {α : Type} {s} {f : State → Run α} {V}, Keeps s (f s) V → Keeps s (get >>= f) V
  fail : ∀ {α : Type} {s e V}, p.scene.Admits (.error e) → Keeps s (Run.fail e : Run α) V
  lift_bind : ∀ {α β : Type} {s} {x : Except Fault α} {f : α → Run β} {V},
    (Strict → ∃ a, x = .ok a) → (∀ a, x = .ok a → Keeps s (f a) V) → Keeps s (liftM x >>= f) V
  note : ∀ {s n}, (∀ c, n ≠ .unknownContext c) → Keeps s (Run.note n) fun _ _ => True
  node : ∀ {s n}, Node s n → Keeps s (Run.node n) fun _ _ => True
  value : ∀ {s c v stmt}, Context s c → toTraits.Known v → (∀ i ∈ stmt, toTraits.Known i) →
    Keeps s (Run.value p c v stmt) Node
  slot : ∀ {s space key}, Keeps s (Run.grow (Growing.slot space key)) Node
  temporary : ∀ {s c stmt}, Context s c → toTraits.Known stmt →
    Keeps s (Run.grow (Growing.temporary c stmt)) Node
  fieldRef : ∀ {s n key}, Node s n → Keeps s (Run.grow (Growing.fieldRef n key)) Node
  element : ∀ {s o}, Target s o → Keeps s (Run.grow (Growing.element o)) Node
  /-- The objects that the models make up for a call. -/
  synthetic : ∀ {s a c owner} {object : SiteId → Synthetic},
    object = .result ∨ object = .containerCopy ∧ owner = some Platform.arrayClass →
    Site s a → Context s c → Keeps s (Run.grow (Growing.synthetic c (object a.id) owner)) Target
  boundFunction : ∀ {s a c f receiver}, Site s a → Context s c → Target s f →
    (∀ n ∈ receiver, Node s n) → Keeps s (Run.grow
      (Growing.boundFunction f a.callee ⟨a.id, (a.args.getD []).length - 1, c⟩ receiver)) Target
  flow : ∀ {s a b kind stmt}, kind ≠ .address → Node s a → Node s b →
    (∀ i ∈ stmt, toTraits.Known i) → Keeps s (Run.flow a b kind stmt) fun _ _ => True
  address : ∀ {s o b stmt}, Answers → Target s o → Node s b → (∀ i ∈ stmt, toTraits.Known i) →
    Keeps s (Run.address o b stmt) fun _ _ => True
  /-- What is attached to a pointer apart from calls. -/
  mark : ∀ {s n} {f : PointerInfo → PointerInfo},
    (∀ i, (f i).dynamicCalls = i.dynamicCalls ∧ (f i).unknownCalls = i.unknownCalls ∧
      (f i).instanceCalls = i.instanceCalls) →
    Node s n → Keeps s (Run.mapPointer n f) fun _ _ => True
  callPointer : ∀ {s a c n args}, Site s a → Context s c → Node s n →
    (∀ x ∈ args, toTraits.Arg s x) → Keeps s (Run.callPointer a c n args) fun _ _ => True
  /-- The context of a callee that has a body. -/
  select : ∀ {s a c object}, Entry s a → p.HasBody a.callee → Context s c →
    (∀ o ∈ object, Base s o) → Keeps s (Run.summarize p a.callee >>= fun _ =>
      Run.calleeContext p a c object a.callee) Context
  enter : ∀ {s a c}, Entry s a → Context s c → Keeps s (Run.enter p a.callee c) fun _ _ => True
  /-- A call makes a method an entry. -/
  launch : ∀ {s a m}, Site s a → toTraits.Known m → Keeps s (Run.addEntry p m >>= fun _ =>
    Run.onCalls (·.addEdge a.id a.caller m .special)) fun _ _ => True

/-- Which other steps have to be looked at to show that callees are connected with their calls. -/
structure Regime.Connects {p : Problem} (K : Regime p) : Prop where
  object : ∀ {s n}, K.Node s n → K.Keeps s (Run.node n) K.Object
  update : ∀ {s n o}, K.Node s n → K.Target s o → K.Keeps s (Run.update p n o) fun _ _ => True

end PointsTo
