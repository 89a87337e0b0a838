import PointsTo.Outcome

/-! What holds after a computation, and that it does not fail for want of fuel. -/
namespace PointsTo

/-- Which failures only say that the fuel did not suffice. -/
class Fueled (ε : Type) where
  OutOfFuel : ε → Prop

instance : Fueled Fault := ⟨fun _ => False⟩

instance : Fueled Failure := ⟨(· = .outOfFuel)⟩

section

variable {ε σ α β : Type} [Fueled ε]

/-- If the computation ends without a failure, its result and its last state satisfy `Q`. If its
fuel runs out, its last state satisfies `L`. -/
def EnsuresOr (L : σ → Prop) (m : EStateM ε σ α) (s : σ) (Q : α → σ → Prop) : Prop :=
  (∀ ⦃a s'⦄, m s = .ok a s' → Q a s') ∧
    ∀ ⦃e s'⦄, m s = .error e s' → Fueled.OutOfFuel e → L s'

/-- The fuel does not run out, and if the computation ends without a failure, its result and its
last state satisfy `Q`. -/
abbrev Ensures (m : EStateM ε σ α) (s : σ) (Q : α → σ → Prop) : Prop :=
  EnsuresOr (fun _ => False) m s Q

variable {m : EStateM ε σ α} {f : α → EStateM ε σ β} {s : σ} {L : σ → Prop} {Q : α → σ → Prop}
  {R : β → σ → Prop} {Q' : α → σ → Prop} {γ : Type} {I : σ → Prop} {P : γ → σ → Prop}

theorem EnsuresOr.mono (h : EnsuresOr L m s Q) (hQ : ∀ a s', Q a s' → Q' a s') :
    EnsuresOr L m s Q' :=
  ⟨fun a s' hm => hQ a s' (h.1 hm), h.2⟩

theorem EnsuresOr.weaken {L' : σ → Prop} (h : EnsuresOr L m s Q) (hL : ∀ s', L s' → L' s') :
    EnsuresOr L' m s Q :=
  ⟨h.1, fun _ s' hm he => hL s' (h.2 hm he)⟩

theorem Ensures.mono (h : Ensures m s Q) (hQ : ∀ a s', Q a s' → Q' a s') : Ensures m s Q' :=
  EnsuresOr.mono h hQ

theorem Ensures.toOr (h : Ensures m s Q) : EnsuresOr L m s Q := h.weaken fun _ => False.elim

/-- What a computation ensures is known together with its outcome. -/
theorem EnsuresOr.runs (h : EnsuresOr L m s Q) :
    EnsuresOr L m s fun a s' => Q a s' ∧ m s = .ok a s' :=
  ⟨fun _ _ hm => ⟨h.1 hm, hm⟩, h.2⟩

/-- Two things that a computation ensures hold together. -/
theorem Ensures.and (h : Ensures m s Q) (h' : Ensures m s Q') :
    Ensures m s fun a s' => Q a s' ∧ Q' a s' :=
  ⟨fun _ _ hm => ⟨h.1 hm, h'.1 hm⟩, h.2⟩

/-- For a computation that cannot run out of fuel it is enough to look at its result. -/
theorem ensures_of_fault {m : EStateM Fault σ α} (h : ∀ ⦃a s'⦄, m s = .ok a s' → Q a s') :
    EnsuresOr L m s Q :=
  ⟨h, fun _ _ _ => False.elim⟩

/-- What is known of any computation. -/
theorem ensures_self : EnsuresOr (fun _ => True) m s fun a s' => m s = .ok a s' :=
  ⟨fun _ _ h => h, fun _ _ _ _ => trivial⟩

omit [Fueled ε] in
theorem get_bind_run (f : σ → EStateM ε σ β) (s : σ) : (get >>= f) s = f s s := rfl

omit [Fueled ε] in
theorem modify_bind_run (g : σ → σ) (f : Unit → EStateM ε σ β) (s : σ) :
    (modify g >>= f) s = f () (g s) := rfl

omit [Fueled ε] in
theorem modifyGet_run (g : σ → α × σ) (s : σ) :
    (modifyGet g : EStateM ε σ α) s = .ok (g s).1 (g s).2 := rfl

omit [Fueled ε] in
theorem modifyGet_bind_run (g : σ → α × σ) (f : α → EStateM ε σ β) (s : σ) :
    (modifyGet g >>= f) s = f (g s).1 (g s).2 := rfl

omit [Fueled ε] in
theorem bind_run_of_ok {a : α} {s' : σ} (h : m s = .ok a s') : (m >>= f) s = f a s' := by
  simp only [Bind.bind, EStateM.bind, h]

omit [Fueled ε] in
theorem bind_eq_ok {b : β} {s' : σ} : (m >>= f) s = .ok b s' ↔
    ∃ a s₁, m s = .ok a s₁ ∧ f a s₁ = .ok b s' := by
  simp only [Bind.bind, EStateM.bind]
  cases m s with
  | error e s₁ => simp
  | ok a s₁ =>
    constructor
    · exact fun h => ⟨a, s₁, rfl, h⟩
    · rintro ⟨_, _, heq, h⟩
      cases heq
      exact h

theorem ensures_bind (hm : EnsuresOr L m s Q) (hf : ∀ a s', Q a s' → EnsuresOr L (f a) s' R) :
    EnsuresOr L (m >>= f) s R := by
  constructor
  · intro b s' h
    obtain ⟨a, s₁, hs, h⟩ := bind_eq_ok.1 h
    exact (hf a s₁ (hm.1 hs)).1 h
  · intro e s' h he
    simp only [Bind.bind, EStateM.bind] at h
    split at h
    · next a s₁ hs => exact (hf a s₁ (hm.1 hs)).2 h he
    · next hs =>
      cases h
      exact hm.2 hs he

/-- A computation is known by its outcome. -/
theorem ensures_of_ok {a : α} {s' : σ} (h : m s = .ok a s') (hQ : Q a s') : EnsuresOr L m s Q := by
  constructor
  · intro b t hb
    cases h.symm.trans hb
    exact hQ
  · intro e t he
    cases h.symm.trans he

theorem ensures_pure {a : α} (h : Q a s) : EnsuresOr L (pure a : EStateM ε σ α) s Q :=
  ensures_of_ok rfl h

theorem ensures_throw {e : ε} (h : Fueled.OutOfFuel e → L s) :
    EnsuresOr L (throw e : EStateM ε σ α) s Q := by
  constructor
  · intro a s' ha
    cases ha
  · intro e' s' he'
    cases he'
    exact h

theorem ensures_get {Q : σ → σ → Prop} (h : Q s s) : EnsuresOr L (get : EStateM ε σ σ) s Q :=
  ensures_of_ok rfl h

/-- What a computation goes on with after it has read the state. -/
theorem ensures_get_bind {f : σ → EStateM ε σ β} (h : EnsuresOr L (f s) s R) :
    EnsuresOr L (get >>= f) s R :=
  h

/-- What a computation goes on with after it has changed the state. -/
theorem ensures_modify_bind {g : σ → σ} {f : Unit → EStateM ε σ β}
    (h : EnsuresOr L (f ()) (g s) R) : EnsuresOr L (modify g >>= f) s R := h

theorem ensures_modifyGet_bind {g : σ → α × σ} {f : α → EStateM ε σ β}
    (h : EnsuresOr L (f (g s).1) (g s).2 R) : EnsuresOr L (modifyGet g >>= f) s R := h

theorem ensures_modify {g : σ → σ} {Q : Unit → σ → Prop} (h : Q () (g s)) :
    EnsuresOr L (modify g : EStateM ε σ Unit) s Q := ensures_of_ok rfl h

theorem ensures_modifyGet {g : σ → α × σ} (h : Q (g s).1 (g s).2) :
    EnsuresOr L (modifyGet g : EStateM ε σ α) s Q := ensures_of_ok rfl h

theorem ensures_discard {P : σ → Prop} (h : EnsuresOr L m s fun _ s' => P s') :
    EnsuresOr L (discard m) s fun _ s' => P s' := by
  have hbind : (discard m : EStateM ε σ Unit) s = (m >>= fun _ => pure ()) s := rfl
  rw [EnsuresOr, hbind]
  exact ensures_bind h fun _ _ hs => ensures_pure hs

/-- What holds while `rest` is left of a loop holds at its end with nothing left. -/
theorem ensures_forM_rest {f : γ → EStateM ε σ Unit} {I : List γ → σ → Prop} (l : List γ)
    (hs : I l s) (hf : ∀ x rest s, I (x :: rest) s → EnsuresOr L (f x) s fun _ s' => I rest s') :
    EnsuresOr L (l.forM f) s fun _ s' => I [] s' := by
  induction l generalizing s with
  | nil => exact ensures_pure hs
  | cons x l ih =>
    refine ensures_bind (hf x l s hs) fun _ s₁ h₁ => ?_
    exact ih h₁

/-- What every pass of a loop achieves and no later pass undoes, the loop achieves. -/
theorem ensures_forM_each {f : γ → EStateM ε σ Unit} (l : List γ) (hs : I s)
    (hf : ∀ x ∈ l, ∀ s, I s → EnsuresOr L (f x) s fun _ s' => I s' ∧ P x s' ∧ ∀ y, P y s → P y s') :
    EnsuresOr L (l.forM f) s fun _ s' => I s' ∧ (∀ x ∈ l, P x s') ∧ ∀ y, P y s → P y s' := by
  induction l generalizing s with
  | nil => exact ensures_pure ⟨hs, by simp, fun _ h => h⟩
  | cons x l ih =>
    refine ensures_bind (hf x (.head _) s hs) fun _ s₁ h₁ => ?_
    refine (ih h₁.1 fun y hy => hf y (.tail _ hy)).mono fun _ s' h' => ⟨h'.1, ?_, ?_⟩
    · intro y hy
      rcases List.mem_cons.1 hy with rfl | hy
      · exact h'.2.2 y h₁.2.1
      · exact h'.2.1 y hy
    · intro y hy
      exact h'.2.2 y (h₁.2.2 y hy)

/-- What every pass of a loop achieves and no later pass undoes, the loop achieves. -/
theorem ensures_mapM_each {f : γ → EStateM ε σ α} (l : List γ) (hs : I s)
    (hf : ∀ x ∈ l, ∀ s, I s → EnsuresOr L (f x) s fun _ s' => I s' ∧ P x s' ∧ ∀ y, P y s → P y s') :
    EnsuresOr L (l.mapM f) s fun _ s' => I s' ∧ (∀ x ∈ l, P x s') ∧ ∀ y, P y s → P y s' := by
  induction l generalizing s with
  | nil => exact ensures_pure ⟨hs, by simp, fun _ h => h⟩
  | cons x l ih =>
    rw [List.mapM_cons]
    refine ensures_bind (hf x (.head _) s hs) fun _ s₁ h₁ => ?_
    refine ensures_bind (ih h₁.1 fun y hy => hf y (.tail _ hy)) fun _ s' h' => ?_
    refine ensures_pure ⟨h'.1, ?_, fun y hy => h'.2.2 y (h₁.2.2 y hy)⟩
    intro y hy
    rcases List.mem_cons.1 hy with rfl | hy
    · exact h'.2.2 y h₁.2.1
    · exact h'.2.1 y hy

end

section Follows

variable {ε σ α β γ : Type} [Fueled ε]

/-- From a state that satisfies `P`, a computation that does not fail leads along `R`. -/
def Follows (P : σ → Prop) (R : σ → σ → Prop) (m : EStateM ε σ α) : Prop :=
  ∀ s, P s → Ensures m s fun _ s' => R s s'

/-- What leads along `R` keeps `P`. -/
class Preserves (P : σ → Prop) (R : σ → σ → Prop) : Prop where
  preserves : ∀ s s', R s s' → P s → P s'

variable {P : σ → Prop} {R : σ → σ → Prop} [Std.Refl R] [Trans R R R] [Preserves P R]
  {m : EStateM ε σ α} {f : α → EStateM ε σ β}

namespace Follows

omit [Trans R R R] [Preserves P R] in
theorem pure (a : α) : Follows P R (Pure.pure a : EStateM ε σ α) :=
  fun s _ => ensures_pure (Std.Refl.refl s)

omit [Std.Refl R] in
theorem bind (hm : Follows P R m) (hf : ∀ a, Follows P R (f a)) : Follows P R (m >>= f) := by
  intro s hs
  refine ensures_bind (hm s hs) fun a s₁ h₁ => ?_
  exact (hf a s₁ (Preserves.preserves s s₁ h₁ hs)).mono fun _ _ h₂ => Trans.trans h₁ h₂

omit [Std.Refl R] [Trans R R R] [Preserves P R] in
theorem throw {e : ε} (he : ¬ Fueled.OutOfFuel e) : Follows P R (throw e : EStateM ε σ α) :=
  fun _ _ => ensures_throw he

omit [Trans R R R] [Preserves P R] in
theorem get : Follows P R (get : EStateM ε σ σ) := fun s _ => ensures_get (Std.Refl.refl s)

omit [Std.Refl R] [Trans R R R] [Preserves P R] in
theorem modify {g : σ → σ} (h : ∀ s, P s → R s (g s)) :
    Follows P R (modify g : EStateM ε σ Unit) := fun s hs => ensures_modify (h s hs)

omit [Std.Refl R] [Trans R R R] [Preserves P R] in
theorem modifyGet {g : σ → α × σ} (h : ∀ s, P s → R s (g s).2) :
    Follows P R (modifyGet g : EStateM ε σ α) := fun s hs => ensures_modifyGet (h s hs)

omit [Std.Refl R] [Trans R R R] [Preserves P R] in
theorem discard (hm : Follows P R m) : Follows P R (discard m) :=
  fun s hs => ensures_discard (hm s hs)

theorem forM {f : γ → EStateM ε σ Unit} {l : List γ} (hf : ∀ x ∈ l, Follows P R (f x)) :
    Follows P R (l.forM f) := by
  induction l with
  | nil => exact .pure ()
  | cons x l ih => exact .bind (hf x (.head _)) fun _ => ih fun y hy => hf y (.tail _ hy)

theorem mapM {f : γ → EStateM ε σ α} {l : List γ} (hf : ∀ x ∈ l, Follows P R (f x)) :
    Follows P R (l.mapM f) := by
  induction l with
  | nil => exact .pure []
  | cons x l ih =>
    rw [List.mapM_cons]
    refine .bind (hf x (.head _)) fun _ => ?_
    exact .bind (ih fun y hy => hf y (.tail _ hy)) fun _ => .pure _

end Follows

end Follows

section Agrees

variable {ε σ α β γ : Type} {R : σ → σ → Prop} {m m' : EStateM ε σ α} {f f' : α → EStateM ε σ β}

/-- From states that `R` relates, two computations give one answer and lead to such states again,
or both fail in the same way. -/
def Agrees (R : σ → σ → Prop) (m m' : EStateM ε σ α) : Prop :=
  ∀ s s', R s s' → (∃ a t t', m s = .ok a t ∧ m' s' = .ok a t' ∧ R t t') ∨
    ∃ e t t', m s = .error e t ∧ m' s' = .error e t'

namespace Agrees

theorem pure (a : α) : Agrees R (Pure.pure a : EStateM ε σ α) (Pure.pure a) :=
  fun s s' h => .inl ⟨a, s, s', rfl, rfl, h⟩

theorem bind (hm : Agrees R m m') (hf : ∀ a, Agrees R (f a) (f' a)) :
    Agrees R (m >>= f) (m' >>= f') := by
  intro s s' h
  simp only [Bind.bind, EStateM.bind]
  rcases hm s s' h with ⟨a, t, t', ht, ht', hr⟩ | ⟨e, t, t', ht, ht'⟩
  · rw [ht, ht']
    exact hf a t t' hr
  · rw [ht, ht']
    exact .inr ⟨e, t, t', rfl, rfl⟩

theorem mapM {f f' : γ → EStateM ε σ α} {l : List γ} (hf : ∀ x, Agrees R (f x) (f' x)) :
    Agrees R (l.mapM f) (l.mapM f') := by
  induction l with
  | nil => exact .pure []
  | cons x l ih =>
    rw [List.mapM_cons, List.mapM_cons]
    exact .bind (hf x) fun _ => .bind ih fun _ => .pure _

theorem filterM {f f' : γ → EStateM ε σ Bool} (l : List γ) (hf : ∀ x, Agrees R (f x) (f' x)) :
    Agrees R (l.filterM f) (l.filterM f') := by
  have haux : ∀ (l acc : List γ), Agrees R (l.filterAuxM f acc) (l.filterAuxM f' acc) := by
    intro l
    induction l with
    | nil => exact fun acc => .pure acc
    | cons x xs ih => exact fun acc => .bind (hf x) fun b => ih (cond b (x :: acc) acc)
  exact .bind (haux l []) fun found => .pure found.reverse

/-- One answer means the other. -/
theorem answers_iff (h : Agrees R m m') {s s' : σ} (hs : R s s') {a : α} :
    (∃ t, m s = .ok a t) ↔ ∃ t, m' s' = .ok a t := by
  rcases h s s' hs with ⟨b, t, t', ht, ht', -⟩ | ⟨e, t, t', ht, ht'⟩
  · simp [ht, ht']
  · simp [ht, ht']

end Agrees

end Agrees

section Concurs

variable {ε σ α β γ : Type} {R : σ → σ → Prop} {m : EStateM ε σ α} {f : α → EStateM ε σ β}

/-- From states that `R` relates, a computation that succeeds twice gives one answer and leads to
such states again. -/
def Concurs (R : σ → σ → Prop) (m : EStateM ε σ α) : Prop :=
  ∀ s s', R s s' → ∀ ⦃a t a' t'⦄, m s = .ok a t → m s' = .ok a' t' → a = a' ∧ R t t'

namespace Concurs

theorem pure (a : α) : Concurs R (Pure.pure a : EStateM ε σ α) := by
  rintro s s' h _ _ _ _ ⟨⟩ ⟨⟩
  exact ⟨rfl, h⟩

theorem bind (hm : Concurs R m) (hf : ∀ a, Concurs R (f a)) : Concurs R (m >>= f) := by
  intro s s' h b t b' t' hrun hrun'
  obtain ⟨a, s₁, hs₁, hb⟩ := bind_eq_ok.1 hrun
  obtain ⟨a', s₁', hs₁', hb'⟩ := bind_eq_ok.1 hrun'
  obtain ⟨rfl, h₁⟩ := hm s s' h hs₁ hs₁'
  exact hf a s₁ s₁' h₁ hb hb'

theorem modifyGet {g : σ → α × σ} (h : ∀ s s', R s s' → (g s).1 = (g s').1 ∧ R (g s).2 (g s').2) :
    Concurs R (modifyGet g : EStateM ε σ α) := by
  rintro s s' hs _ _ _ _ ⟨⟩ ⟨⟩
  exact h s s' hs

theorem modify {g : σ → σ} (h : ∀ s s', R s s' → R (g s) (g s')) :
    Concurs R (modify g : EStateM ε σ Unit) :=
  .modifyGet fun s s' hs => ⟨rfl, h s s' hs⟩

theorem discard (hm : Concurs R m) : Concurs R (discard m) := .bind hm fun _ => .pure ()

theorem forM {f : γ → EStateM ε σ Unit} {l : List γ} (hf : ∀ x ∈ l, Concurs R (f x)) :
    Concurs R (l.forM f) := by
  induction l with
  | nil => exact .pure ()
  | cons x l ih =>
    exact .bind (hf x (.head _)) fun _ => ih fun y hy => hf y (.tail _ hy)

end Concurs

end Concurs

section Achieves

variable {ε σ α β γ : Type} {m : EStateM ε σ α} {f : α → EStateM ε σ β} {s : σ} {Q : α → σ → Prop}
  {R : β → σ → Prop} {g : γ → EStateM ε σ Unit}

/-- The computation ends without a failure, and its result and its last state satisfy `Q`. -/
def Achieves (m : EStateM ε σ α) (s : σ) (Q : α → σ → Prop) : Prop :=
  ∃ a s', m s = .ok a s' ∧ Q a s'

theorem Achieves.mono {Q' : α → σ → Prop} (h : Achieves m s Q) (hQ : ∀ a s', Q a s' → Q' a s') :
    Achieves m s Q' := by
  obtain ⟨a, s', hm, ha⟩ := h
  exact ⟨a, s', hm, hQ a s' ha⟩

theorem achieves_bind_ok {a : α} {s' : σ} (hm : m s = .ok a s') (h : Achieves (f a) s' R) :
    Achieves (m >>= f) s R := by
  obtain ⟨b, s'', hrun, hb⟩ := h
  refine ⟨b, s'', ?_, hb⟩
  simp only [Bind.bind, EStateM.bind, hm, hrun]

theorem achieves_bind (hm : Achieves m s Q) (hf : ∀ a s', Q a s' → Achieves (f a) s' R) :
    Achieves (m >>= f) s R := by
  obtain ⟨a, s₁, hs₁, ha⟩ := hm
  exact achieves_bind_ok hs₁ (hf a s₁ ha)

theorem achieves_pure {a : α} (h : Q a s) : Achieves (pure a : EStateM ε σ α) s Q := ⟨a, s, rfl, h⟩

theorem achieves_get_bind {f : σ → EStateM ε σ β} (h : Achieves (f s) s R) :
    Achieves (get >>= f) s R :=
  h

theorem achieves_modify {g : σ → σ} {Q : Unit → σ → Prop} (h : Q () (g s)) :
    Achieves (modify g : EStateM ε σ Unit) s Q :=
  ⟨(), g s, rfl, h⟩

theorem achieves_modifyGet {g : σ → α × σ} (h : Q (g s).1 (g s).2) :
    Achieves (modifyGet g : EStateM ε σ α) s Q :=
  ⟨(g s).1, (g s).2, rfl, h⟩

theorem achieves_discard {P : σ → Prop} (h : Achieves m s fun _ s' => P s') :
    Achieves (discard m) s fun _ s' => P s' := by
  obtain ⟨a, s', hm, hs'⟩ := h
  refine ⟨.unit, s', ?_, hs'⟩
  simp only [Functor.discard, Functor.mapConst, EStateM.map, Function.comp, hm, Function.const]

theorem achieves_forM_nil_bind {f : Unit → EStateM ε σ β} (h : Achieves (f ()) s R) :
    Achieves (([] : List γ).forM g >>= f) s R :=
  h

theorem achieves_forM_one_bind {x : γ} {f : Unit → EStateM ε σ β} (h : Achieves (g x >>= f) s R) :
    Achieves ([x].forM g >>= f) s R := by
  simpa [List.forM] using h

theorem achieves_mapM_one {f : γ → EStateM ε σ α} {P : σ → Prop} {x : γ}
    (h : Achieves (f x) s fun _ s' => P s') : Achieves ([x].mapM f) s fun _ s' => P s' := by
  rw [List.mapM_cons]
  exact achieves_bind h fun _ _ hs => achieves_bind (achieves_pure hs) fun _ _ => achieves_pure

end Achieves

/-- Whether a run has ended with the given property. -/
def endsWith {ε σ α : Type} (r : EStateM.Result ε σ α) (q : α → σ → Bool) : Bool :=
  match r with
  | .ok a s => q a s
  | .error .. => false

theorem exists_of_endsWith {ε σ α : Type} {r : EStateM.Result ε σ α} {q : α → σ → Bool}
    (h : endsWith r q = true) : ∃ a s, r = .ok a s ∧ q a s = true := by
  cases r with
  | ok a s => exact ⟨a, s, rfl, h⟩
  | error => simp [endsWith] at h

end PointsTo
