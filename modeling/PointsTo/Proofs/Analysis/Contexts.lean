import PointsTo.Proofs.Analysis.Reachable
import PointsTo.Proofs.Context.Histories

/-! The contexts of an analysis are bounded histories of calls. -/
namespace PointsTo

/-- Contexts of the table, with few items. -/
def ContextTable.Bounded (t : ContextTable) (depth : Nat) : Positions
  | .context, c => t.Has c ∧ (t.itemsOf c).length ≤ depth
  | _, _ => True

/-- No context but the empty one. -/
def OnlyEmpty : Positions
  | .context, c => c = ContextId.empty
  | _, _ => True

namespace State

variable {p : Problem} {s : State}

theorem InRange.bounded (h : s.InRange p) : s.Refs (s.contexts.Bounded p.settings.depth) := by
  refine h.toRefs.mono fun t r hr => ?_
  cases t with
  | context => exact ⟨hr, h.contexts.length_itemsOf_le r⟩
  | _ => trivial

theorem InRange.onlyEmpty (h : s.InRange p) (hdepth : p.settings.depth = 0) : s.Refs OnlyEmpty := by
  have hvalid := h.contexts
  rw [hdepth] at hvalid
  refine h.toRefs.mono fun t r hr => ?_
  cases t with
  | context => exact hvalid.eq_empty hr
  | _ => trivial

end State

/-- What is instantiated already is only taken from the agenda. -/
theorem Run.drainOnce_of_mem {p : Problem} {s : State} {a : Activation} {agenda : Queue Activation}
    (hpop : s.agenda.pop? = some (a, agenda)) (ha : a ∈ s.instantiated) :
    Run.drainOnce p s = .ok (some false) { s with agenda } := by
  rw [drainOnce, get_bind_run, hpop]
  dsimp only
  rw [modify_bind_run, get_bind_run, if_pos (Std.TreeSet.contains_iff_mem.2 ha)]
  rfl

/-- Contexts are bounded histories. Whoever asks for contexts under those it was given gets the newest
items of all that it has asked for, each list of items has one context, and what was given stays. In
every state of an analysis all contexts that it stores are of this kind, and if their depth is zero
they are empty and no method is instantiated twice. -/
theorem Problem.contexts_exact :
    (∀ (policy : Policy) (depth : Nat) (s : ContextSession), ContextSession.Leads policy depth {} s →
      (∀ entry,
        let choice := s.table.enter policy depth entry
        choice.notice = none ∧
          choice.table.itemsOf choice.context = (policy.entryItem? entry).toList.take depth) ∧
      (∀ k ∈ s.known, ∀ site object callee,
        let choice := s.table.select policy depth k.1 site object callee
        choice.notice = none ∧
          match policy.item? site object callee with
          | some item =>
            choice.table.itemsOf choice.context = (item :: s.table.itemsOf k.1).take depth
          | none => choice.context = k.1 ∧ choice.table = s.table) ∧
      (∀ k ∈ s.known, s.table.itemsOf k.1 = k.2.take depth) ∧
      (∀ k ∈ s.known, ∀ l ∈ s.known, k.1 = l.1 ↔ s.table.itemsOf k.1 = s.table.itemsOf l.1) ∧
      ∀ s', ContextSession.Leads policy depth s s' →
        ∀ k ∈ s.known, s'.table.itemsOf k.1 = s.table.itemsOf k.1) ∧
    ∀ p : Problem,
      (∀ fuel s e, p.analyze fuel = .ok () s ∨ p.analyze fuel = .error e s → p.Visits s) ∧
      ∀ s, p.Visits s → s.Refs (s.contexts.Bounded p.settings.depth) ∧
        (p.settings.depth = 0 → s.Refs OnlyEmpty ∧
          (∀ c c' m, (c, m) ∈ s.instantiated → (c', m) ∈ s.instantiated → c = c') ∧
          ∀ c c' m agenda, (c, m) ∈ s.instantiated → s.agenda.pop? = some ((c', m), agenda) →
            Run.drainOnce p s = .ok (some false) { s with agenda }) := by
  refine ⟨fun policy depth s hs => ?_, fun p => ⟨fun fuel s e => visits_of_analyze, fun s hs => ?_⟩⟩
  · have hexact := ((ContextSession.exact_start depth).leads hs).1
    refine ⟨hexact.enter, fun k hk site object callee => hexact.select hk site object callee,
      hexact.items, fun k hk l hl => ⟨fun h => by rw [h], ?_⟩, fun s' hs' k hk => ?_⟩
    · exact hexact.valid.itemsOf_injective (hexact.has k hk) (hexact.has l hl)
    · exact (hexact.leads hs').2.itemsOf hexact.valid (hexact.has k hk)
  · have hrange := hs.inRange
    refine ⟨hrange.bounded, fun hdepth => ?_⟩
    have honly := hrange.onlyEmpty hdepth
    have hempty : ∀ c m, (c, m) ∈ s.instantiated → c = .empty :=
      fun c m hc => (honly.instantiated (c, m) hc).1
    refine ⟨honly, fun c c' m hc hc' => (hempty c m hc).trans (hempty c' m hc').symm, ?_⟩
    intro c c' m agenda hc hpop
    have hc' : c' = .empty := (honly.agenda (c', m) (Queue.toList_of_pop? hpop ▸ .head _)).1
    rw [hempty c m hc, ← hc'] at hc
    exact Run.drainOnce_of_mem hpop hc

/-- Of three calls the newest two are remembered. Without contexts, the function `g` of
`storedFunction` is instantiated once, although it is called twice. -/
theorem Problem.contexts_exact_chain :
    (∃ s k, ContextSession.Leads .callSite 2 {} s ∧ k ∈ s.known ∧
      k.2 = [.callSite ⟨2⟩ ⟨1⟩, .callSite ⟨1⟩ ⟨1⟩, .callSite ⟨0⟩ ⟨1⟩] ∧
      s.table.itemsOf k.1 = [.callSite ⟨2⟩ ⟨1⟩, .callSite ⟨1⟩ ⟨1⟩]) ∧
    ∃ s, Problem.analyze { storedFunction with settings := { depth := 0 } } 3 = .ok () s ∧
      s.Refs OnlyEmpty ∧ (ContextId.empty, ⟨1⟩) ∈ s.instantiated ∧
      ∀ c, (c, ⟨1⟩) ∈ s.instantiated → c = ContextId.empty := by
  constructor
  · have hleads := Relation.ReflTransGen.refl (r := ContextSession.Step .callSite 2) (a := {})
      |>.tail (.select ⟨0⟩ none ⟨1⟩ (List.mem_cons_self ..))
      |>.tail (.select ⟨1⟩ none ⟨1⟩ (.tail _ (List.mem_cons_self ..)))
      |>.tail (.select ⟨2⟩ none ⟨1⟩ (.tail _ (List.mem_cons_self ..)))
    refine ⟨_, _, hleads, .tail _ (.head _), rfl, ?_⟩
    exact (contexts_exact.1 _ _ _ hleads).2.2.1 _ (.tail _ (.head _))
  · obtain ⟨_, s, hrun, hmem⟩ := exists_of_endsWith
      (r := Problem.analyze { storedFunction with settings := { depth := 0 } } 3)
      (q := fun _ s => s.instantiated.contains (ContextId.empty, ⟨1⟩)) (by decide +kernel)
    have hmem := Std.TreeSet.contains_iff_mem.1 hmem
    obtain ⟨hvisits, hstates⟩ := contexts_exact.2 { storedFunction with settings := { depth := 0 } }
    obtain ⟨honly, honce, -⟩ := (hstates s (hvisits 3 s .outOfFuel (.inl hrun))).2 rfl
    exact ⟨s, hrun, honly, hmem, fun c hc => honce _ _ _ hc hmem⟩

end PointsTo
