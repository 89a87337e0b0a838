import PointsTo.Proofs.Ensures

/-! Computations that lead from states in order to states in order, and that fail only as they may. -/
namespace PointsTo

/-- Which states are in order, what stays true from one state on, and which failures may happen in
which states. -/
structure Guard (ε σ : Type) where
  Holds : σ → Prop
  Later : σ → σ → Prop
  Fails : ε → σ → Prop
  refl : ∀ s, Later s s
  trans : ∀ {s t u}, Later s t → Later t u → Later s u

namespace Guard

variable {ε σ α β γ : Type} (G : Guard ε σ)

/-- How a computation that started from `s` ends. -/
inductive Outcome (s : σ) (V : σ → α → Prop) : EStateM.Result ε σ α → Prop where
  | ok {a : α} {t : σ} : G.Holds t → G.Later s t → V t a → Outcome s V (.ok a t)
  | error {e : ε} {t : σ} : G.Later s t → G.Fails e t → Outcome s V (.error e t)

/-- From `s`, if it is in order, the computation leads to states in order, `V` holds of its result,
and it fails only as it may. -/
def Safe (s : σ) (m : EStateM ε σ α) (V : σ → α → Prop) : Prop := G.Holds s → G.Outcome s V (m s)

/-- Whatever the result. -/
abbrev Runs (s : σ) (m : EStateM ε σ α) : Prop := G.Safe s m fun _ _ => True

variable {G} {s t : σ} {V : σ → α → Prop} {W : σ → β → Prop} {m : EStateM ε σ α}
  {f : α → EStateM ε σ β}

theorem Outcome.mono {V' : σ → α → Prop} {r : EStateM.Result ε σ α} (h : G.Outcome s V r)
    (hV : ∀ t a, G.Holds t → G.Later s t → V t a → V' t a) : G.Outcome s V' r := by
  cases h with
  | ok ht hl hv => exact .ok ht hl (hV _ _ ht hl hv)
  | error hl he => exact .error hl he

theorem Outcome.later {r : EStateM.Result ε σ α} (h : G.Outcome t V r) (hl : G.Later s t) :
    G.Outcome s V r := by
  cases h with
  | ok ht hl' hv => exact .ok ht (G.trans hl hl') hv
  | error hl' he => exact .error (G.trans hl hl') he

namespace Safe

theorem mono {V' : σ → α → Prop} (h : G.Safe s m V)
    (hV : ∀ t a, G.Holds t → G.Later s t → V t a → V' t a) : G.Safe s m V' :=
  fun hs => (h hs).mono hV

theorem runs (h : G.Safe s m V) : G.Runs s m := h.mono fun _ _ _ _ _ => trivial

/-- That the state is in order may be used. -/
theorem of_holds (h : G.Holds s → G.Safe s m V) : G.Safe s m V := fun hs => h hs hs

theorem pure {a : α} (h : V s a) : G.Safe s (Pure.pure a : EStateM ε σ α) V :=
  fun hs => .ok hs (G.refl s) h

theorem throw {e : ε} (h : G.Holds s → G.Fails e s) : G.Safe s (throw e : EStateM ε σ α) V :=
  fun hs => .error (G.refl s) (h hs)

theorem bind (hm : G.Safe s m V) (hf : ∀ t a, G.Later s t → V t a → G.Safe t (f a) W) :
    G.Safe s (m >>= f) W := by
  intro hs
  have hout := hm hs
  simp only [Bind.bind, EStateM.bind]
  revert hout
  generalize m s = r
  intro hout
  cases hout with
  | ok ht hl hv => exact (hf _ _ hl hv ht).later hl
  | error hl he => exact .error hl he

/-- What follows does not depend on the result. -/
theorem next (hm : G.Safe s m V) (hf : ∀ t a, G.Later s t → G.Safe t (f a) W) :
    G.Safe s (m >>= f) W :=
  bind hm fun t a hl _ => hf t a hl

/-- Nothing follows but the result. -/
theorem last {g : α → β} (hm : G.Safe s m V) : G.Runs s (m >>= fun a => Pure.pure (g a)) :=
  bind hm fun _ _ _ _ => pure trivial

theorem get_bind {f : σ → EStateM ε σ β} (h : G.Safe s (f s) W) : G.Safe s (get >>= f) W := h

theorem modify {g : σ → σ} {V : σ → Unit → Prop}
    (h : G.Holds s → G.Holds (g s) ∧ G.Later s (g s) ∧ V (g s) ()) :
    G.Safe s (modify g : EStateM ε σ Unit) V :=
  fun hs => .ok (h hs).1 (h hs).2.1 (h hs).2.2

theorem modifyGet {g : σ → α × σ}
    (h : G.Holds s → G.Holds (g s).2 ∧ G.Later s (g s).2 ∧ V (g s).2 (g s).1) :
    G.Safe s (modifyGet g : EStateM ε σ α) V :=
  fun hs => .ok (h hs).1 (h hs).2.1 (h hs).2.2

theorem discard (h : G.Safe s m V) : G.Runs s (discard m) := bind h fun _ _ _ _ => pure trivial

/-- A loop over a list, each pass of which may use what held before the loop. -/
theorem forM {f : γ → EStateM ε σ Unit} {l : List γ}
    (hf : ∀ t x, G.Later s t → x ∈ l → G.Runs t (f x)) : G.Runs s (l.forM f) := by
  induction l generalizing s with
  | nil => exact pure trivial
  | cons x l ih =>
    refine next (hf s x (G.refl s) (.head _)) fun t _ hl => ih fun u y hl' hy => ?_
    exact hf u y (G.trans hl hl') (.tail _ hy)

theorem mapM {f : γ → EStateM ε σ α} {l : List γ} (hV : ∀ {s t a}, G.Later s t → V s a → V t a)
    (hf : ∀ t x, G.Later s t → x ∈ l → G.Safe t (f x) V) :
    G.Safe s (l.mapM f) fun t as => ∀ a ∈ as, V t a := by
  induction l generalizing s with
  | nil => exact pure nofun
  | cons x l ih =>
    rw [List.mapM_cons]
    refine bind (hf s x (G.refl s) (.head _)) fun t a hl ha => ?_
    refine bind (ih fun u y hl' hy => hf u y (G.trans hl hl') (.tail _ hy)) fun u as hl' has => ?_
    exact pure (List.forall_mem_cons.2 ⟨hV hl' ha, has⟩)

theorem filterM {f : γ → EStateM ε σ Bool} {l : List γ}
    (hf : ∀ t x, G.Later s t → x ∈ l → G.Runs t (f x)) :
    G.Safe s (l.filterM f) fun _ l' => ∀ x ∈ l', x ∈ l := by
  have haux : ∀ (rest acc : List γ) (t : σ), G.Later s t → (∀ x ∈ rest, x ∈ l) →
      (∀ x ∈ acc, x ∈ l) → G.Safe t (rest.filterAuxM f acc) fun _ l' => ∀ x ∈ l', x ∈ l := by
    intro rest
    induction rest with
    | nil => exact fun acc t _ _ hacc => pure hacc
    | cons x rest ih =>
      intro acc t hl hrest hacc
      refine next (hf t x hl (hrest x (.head _))) fun u b hl' => ?_
      refine ih _ u (G.trans hl hl') (fun y hy => hrest y (.tail _ hy)) ?_
      cases b with
      | false => exact hacc
      | true => exact List.forall_mem_cons.2 ⟨hrest x (.head _), hacc⟩
  refine bind (haux l [] s (G.refl s) (fun _ hx => hx) nofun) fun t found _ hfound => pure ?_
  simpa using hfound

end Safe

/-- A guard that counts only if it is asked for. -/
def when (G : Guard ε σ) (A : Prop) : Guard ε σ where
  Holds s := A → G.Holds s
  Later s t := A → G.Later s t
  Fails e s := A → G.Fails e s
  refl s _ := G.refl s
  trans h h' hA := G.trans (h hA) (h' hA)

/-- Two guards at once, the second one only if it is asked for. -/
def both (G H : Guard ε σ) (A : Prop) : Guard ε σ where
  Holds s := G.Holds s ∧ (H.when A).Holds s
  Later s t := G.Later s t ∧ (H.when A).Later s t
  Fails e s := G.Fails e s ∧ (H.when A).Fails e s
  refl s := ⟨G.refl s, (H.when A).refl s⟩
  trans h h' := ⟨G.trans h.1 h'.1, (H.when A).trans h.2 h'.2⟩

end Guard

end PointsTo
