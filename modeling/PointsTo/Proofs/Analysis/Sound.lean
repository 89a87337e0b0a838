import PointsTo.Proofs.Analysis.Step
import PointsTo.Proofs.Flow.Changes
import PointsTo.Proofs.Solver.Run

/-! What steps leave alone, and that they announce to the solver whatever they leave to be done. -/
namespace PointsTo

namespace FlowGraph

variable {g g' : FlowGraph}

theorem Enlarges.persists {s : Scene} (h : g.Enlarges s g') : g.Persists g' where
  nodes n a ha := by
    obtain ⟨a', ha', hk, -⟩ := h.keeps n a ha
    exact ⟨a', ha', hk⟩
  edge? := h.edge?
  addresses := by simp only [h.addressEdges, List.prefix_rfl]

end FlowGraph

/-- What is announced to the solver stays so if the graph gets more nodes, and more edges that wake
up their sources. -/
theorem Solver.Ready.persists {scene : Scene} {v v' : Solver} {l l' : List NodeId}
    (h : Ready l v) (hg : v.graph.Consistent scene) (hp : v.graph.Persists v'.graph)
    (hpoints : v'.points = v.points) (hcursor : v'.cursor = v.cursor)
    (hsize : v.cursor ≤ v.graph.addressEdges.size)
    (hobj : ∀ n o, v.points.Has n o → o.index < v.graph.nodes.size) (hl : ∀ n ∈ l, n ∈ l')
    (hnew : ∀ a b k, v'.graph.Edge a b k →
      v.graph.Edge a b k ∨ v'.graph.Wakes a b k (· ∈ l')) : Ready l' v' where
  range n o ho := by
    rw [hpoints] at ho
    exact hp.lt_size (h.range n o ho)
  settled := by
    rw [hpoints]
    exact h.settled
  addresses i hi e he := by
    obtain ⟨t, ht⟩ := hp.addresses
    rw [← ht, hcursor, List.take_append_of_le_length (by simpa using hsize)] at hi
    obtain ⟨e', he', -⟩ := (hg.tables.addresses i).1 (Array.mem_def.2 (List.mem_of_mem_take hi))
    cases Option.some.inj (he.symm.trans (hp.edge? i e' he'))
    rw [hpoints]
    exact h.addresses i hi e he'
  copies a b o hc ho := by
    rw [hpoints] at ho ⊢
    obtain ⟨k, hk, he⟩ := hc
    rcases hnew a b k he with he | hwakes
    · exact (h.copies a b o ⟨k, hk, he⟩ ho).imp_left (hl a)
    · exact .inl (hwakes.copies hk)
  accesses r b key o hr ho hobject := by
    rw [hpoints] at ho
    by_cases hb : b ∈ l'
    · exact .inl hb
    -- an edge through `r` is an old one, so that `r` itself is old
    have hold : r.index < v.graph.nodes.size → Served v.graph r key o v.graph := fun hlt =>
      (h.accesses r b key o (hp.isFieldRef_of_lt hlt hr) ho
        (hp.isObject_of_lt (hobj b o ho) hobject)).resolve_left fun hb' => hb (hl b hb')
    refine .inr ⟨fun d hd => ?_, fun a ha => ?_⟩
    · rcases hnew r d .load hd with hd | hwakes
      · obtain ⟨x, hx, he⟩ := (hold (hg.tables.lt_size hd).1).1 d hd
        exact ⟨x, hp.isField hx, hp.edge he⟩
      · exact absurd (hwakes.loads rfl b key hr) hb
    · rcases hnew a r .write ha with ha | hwakes
      · obtain ⟨x, hx, he⟩ := (hold (hg.tables.lt_size ha).2).2 a ha
        exact ⟨x, hp.isField hx, hp.edge he⟩
      · exact absurd (hwakes.writes rfl b key hr) hb

namespace State

/-- Where the next solution starts. -/
def solver (s : State) : Solver := { graph := s.graph, points := s.points, cursor := s.cursor }

/-- The tables are in order, and what is left to do is announced to the solver. -/
structure Sound (p : Problem) (s : State) : Prop extends Sane p s where
  ready : s.solver.Ready s.retrigger.toList
  cursor : s.cursor ≤ s.graph.addressEdges.size
  objects : ∀ n o, s.points.Has n o → o.index < s.graph.nodes.size
  updates : ∀ (n : NodeId) (set : ObjectSet), s.updates[n]? = some set →
    n.index < s.graph.nodes.size ∧ ∀ o, set.contains o = true → o.index < s.graph.nodes.size
  unresolved : ∀ d ∈ s.unresolved, ∃ site, s.calls.sites.dynamic? d.1 = some site

variable {p : Problem} {w : Phase} {s s' s'' : State}

theorem Step.persists (h : s.Step p w s') : s.graph.Persists s'.graph := by
  cases h with
  | records h => cases h <;> exact .refl _
  | nodes h => exact h.toAdds.persists
  | edge | address => exact FlowGraph.persists_withEdge
  | attach | mark => exact FlowGraph.persists_mapPointer
  | update | calls => exact .refl _

theorem Step.points (h : s.Step p w s') : s'.points = s.points := by
  cases h with
  | records h => cases h <;> rfl
  | _ => rfl

theorem Step.cursor (h : s.Step p w s') : s'.cursor = s.cursor := by
  cases h with
  | records h => cases h <;> rfl
  | _ => rfl

theorem Step.retrigger (h : s.Step p w s') : ∀ n ∈ s.retrigger, n ∈ s'.retrigger := by
  intro n hn
  cases h with
  | records h => cases h <;> exact hn
  | edge _ _ _ _ hmono => exact hmono n hn
  | attach => exact (mem_insert ..).2 (.inr hn)
  | nodes | address | mark | update | calls => exact hn

/-- A new edge wakes up its source, unless it is an address edge. -/
theorem Step.edge_cases (h : s.Step p w s') {a b : NodeId} {k : EdgeKind}
    (he : s'.graph.Edge a b k) :
    s.graph.Edge a b k ∨ k = .address ∨ s'.graph.Wakes a b k (· ∈ s'.retrigger) := by
  cases h with
  | records h => cases h <;> exact .inl he
  | nodes h => exact .inl (h.toAdds.edge_iff.1 he)
  | edge _ _ _ _ _ hwakes =>
    rcases FlowGraph.edge_withEdge.1 he with he | ⟨rfl, rfl, rfl⟩
    · exact .inl he
    · exact .inr (.inr ⟨hwakes.copies, hwakes.loads, hwakes.writes⟩)
  | address =>
    rcases FlowGraph.edge_withEdge.1 he with he | ⟨rfl, rfl, rfl⟩
    · exact .inl he
    · exact .inr (.inl rfl)
  | attach | mark | update | calls => exact .inl he

theorem Step.updates (h : s.Step p w s') {n : NodeId} {set : ObjectSet}
    (hset : s'.updates[n]? = some set) : s.updates[n]? = some set ∨
      n.index < s.graph.nodes.size ∧ ∀ o, set.contains o = true →
        o.index < s.graph.nodes.size ∨ ∃ old, s.updates[n]? = some old ∧ old.contains o = true := by
  cases h with
  | records h => cases h <;> exact .inl hset
  | @update m x hm hx =>
    rw [getElem?_insert] at hset
    split at hset
    · next heq =>
      subst heq
      cases hset
      refine .inr ⟨hm, fun o ho => ?_⟩
      rw [ObjectSet.contains_insert, Bool.or_eq_true, decide_eq_true_eq] at ho
      rcases ho with ho | rfl
      · cases hold : s.updates[m]? with
        | none => simp [hold, Collection.contains_empty] at ho
        | some old => exact .inr ⟨old, rfl, by simpa [hold] using ho⟩
      · exact .inl hx
    · exact .inl hset
  | nodes | edge | address | attach | mark | calls => exact .inl hset

theorem Step.calls_grows (h : s.Step p w s') : s.calls.Grows p.scene s'.calls := by
  cases h with
  | records h => cases h <;> exact Std.Refl.refl _
  | calls h => exact h
  | _ => exact Std.Refl.refl _

theorem Step.sites (h : s.Step p w s') : s.calls.sites.Grows s'.calls.sites := h.calls_grows.sites

theorem Step.tables (h : s.Step p w s') : s'.resolved = s.resolved ∧
    s'.unresolved = s.unresolved ∧ s'.fieldDispatched = s.fieldDispatched := by
  cases h with
  | records h => cases h <;> exact ⟨rfl, rfl, rfl⟩
  | _ => exact ⟨rfl, rfl, rfl⟩

theorem Step.sound (h : s.Step p w s') (hs : s.Sound p) : s'.Sound p where
  toSane := (h.sane hs.toSane).1
  ready := by
    refine hs.ready.persists hs.graph h.persists h.points h.cursor hs.cursor hs.objects ?_ ?_
    · simpa using h.retrigger
    · intro a b k he
      rcases h.edge_cases he with he | rfl | hwakes
      · exact .inl he
      · exact .inr ⟨by simp [EdgeKind.isCopyLike], by simp, by simp⟩
      · exact .inr (by simpa only [Std.TreeSet.mem_toList, solver] using hwakes)
  cursor := by
    rw [h.cursor]
    exact Nat.le_trans hs.cursor h.persists.addresses.length_le
  objects n o ho := by
    rw [h.points] at ho
    exact h.persists.lt_size (hs.objects n o ho)
  updates n set hset := by
    rcases h.updates hset with hset | ⟨hn, ho⟩
    · exact (hs.updates n set hset).imp h.persists.lt_size
        fun ho o hin => h.persists.lt_size (ho o hin)
    · refine ⟨h.persists.lt_size hn, fun o hin => h.persists.lt_size ?_⟩
      rcases ho o hin with ho | ⟨old, hold, hin⟩
      · exact ho
      · exact (hs.updates n old hold).2 o hin
  unresolved d hd := by
    rw [h.tables.2.1] at hd
    obtain ⟨site, hsite⟩ := hs.unresolved d hd
    exact ⟨site, h.sites.dynamic? hsite⟩

/-- What any number of turns leaves alone. -/
structure Evolves (w : Phase) (s s' : State) : Prop where
  points : s'.points = s.points
  cursor : s'.cursor = s.cursor
  graph : s.graph.Persists s'.graph
  addresses : w = .quiet → s'.graph.addressEdges = s.graph.addressEdges
  registers : ∀ n d, s'.graph.Registers n d →
    s.graph.Registers n d ∨ n ∈ s'.retrigger ∧ (w.instantiates = true ∨ s'.Mute d.1)
  retrigger : ∀ n ∈ s.retrigger, n ∈ s'.retrigger
  sites : s.calls.sites.Grows s'.calls.sites
  instantiated : ∀ a ∈ s.instantiated, a ∈ s'.instantiated
  resolved : ∀ d ∈ s.resolved, d ∈ s'.resolved
  unresolved : w = .quiet → ∀ d ∈ s'.unresolved, d ∈ s.unresolved ∨ s'.Mute d.1
  fieldDispatched : ∀ d ∈ s.fieldDispatched, d ∈ s'.fieldDispatched

theorem Mute.mono {i : SiteId} (hm : s.Mute i) (h : s.calls.sites.Grows s'.calls.sites) :
    s'.Mute i := by
  obtain ⟨site, hs, ht⟩ := hm
  exact ⟨site, h.dynamic? hs, ht⟩

theorem Evolves.refl (w : Phase) (s : State) : Evolves w s s where
  points := rfl
  cursor := rfl
  graph := .refl _
  addresses _ := rfl
  registers _ _ h := .inl h
  retrigger _ h := h
  sites := Std.Refl.refl _
  instantiated _ h := h
  resolved _ h := h
  unresolved _ _ h := .inl h
  fieldDispatched _ h := h

theorem Evolves.trans (h : Evolves w s s') (h' : Evolves w s' s'') : Evolves w s s'' where
  points := h'.points.trans h.points
  cursor := h'.cursor.trans h.cursor
  graph := h.graph.trans h'.graph
  addresses hw := (h'.addresses hw).trans (h.addresses hw)
  registers n d hd := by
    rcases h'.registers n d hd with hd | hd
    · refine (h.registers n d hd).imp_right fun ⟨hn, hm⟩ => ⟨h'.retrigger n hn, ?_⟩
      exact hm.imp_right fun hm => hm.mono h'.sites
    · exact .inr hd
  retrigger n hn := h'.retrigger n (h.retrigger n hn)
  sites := Trans.trans h.sites h'.sites
  instantiated a ha := h'.instantiated a (h.instantiated a ha)
  resolved d hd := h'.resolved d (h.resolved d hd)
  unresolved hw d hd := by
    rcases h'.unresolved hw d hd with hd | hm
    · exact (h.unresolved hw d hd).imp_right fun hm => hm.mono h'.sites
    · exact .inr hm
  fieldDispatched d hd := h'.fieldDispatched d (h.fieldDispatched d hd)

theorem Step.registers (h : s.Step p w s') {n : NodeId} {d : SiteId × ContextId}
    (hd : s'.graph.Registers n d) :
    s.graph.Registers n d ∨ n ∈ s'.retrigger ∧ (w.instantiates = true ∨ s'.Mute d.1) := by
  cases h with
  | records h => cases h <;> exact .inl hd
  | nodes h => exact .inl (h.toAdds.registers_iff.1 hd)
  | attach hf _ _ hw =>
    refine (registers_mapPointer (fun i e he => (hf i e).1 he) hd).imp_right ?_
    rintro ⟨rfl, rfl⟩
    exact ⟨(mem_insert ..).2 (.inl rfl), hw⟩
  | mark hf =>
    refine (registers_mapPointer (Q := fun _ => False) (fun i e he => .inl ?_) hd).imp_right ?_
    · rwa [hf] at he
    · exact fun h => h.2.elim
  | edge | address | update | calls => exact .inl hd

theorem Step.addressEdges (h : s.Step p .quiet s') :
    s'.graph.addressEdges = s.graph.addressEdges := by
  cases h with
  | records h => cases h <;> rfl
  | nodes h => exact h.addressEdges
  | edge hk => simp [FlowGraph.withEdge, hk]
  | address hw => exact absurd rfl hw
  | attach | mark | update | calls => rfl

theorem Step.instantiated (h : s.Step p w s') : s'.instantiated = s.instantiated := by
  cases h with
  | records h => cases h <;> rfl
  | _ => rfl

theorem Turn.instantiated (h : s.Turn p w s') (hw : w.instantiates = false) :
    s'.instantiated = s.instantiated := by
  cases h with
  | step h => exact h.instantiated
  | take h => exact absurd (h.symm.trans hw) (by decide)
  | _ => rfl

theorem Step.evolves (h : s.Step p w s') : Evolves w s s' where
  points := h.points
  cursor := h.cursor
  graph := h.persists
  addresses hw := by
    subst hw
    exact h.addressEdges
  registers _ _ hd := h.registers hd
  retrigger := h.retrigger
  sites := h.sites
  instantiated a ha := h.instantiated ▸ ha
  resolved d hd := h.tables.1 ▸ hd
  unresolved _ d hd := .inl (h.tables.2.1 ▸ hd)
  fieldDispatched d hd := h.tables.2.2 ▸ hd

theorem Turn.evolves (h : s.Turn p w s') : Evolves w s s' := by
  have hs := Evolves.refl w s
  cases h with
  | step h => exact h.evolves
  | skip => exact { hs with }
  | take => exact { hs with instantiated := fun b hb => (mem_insert ..).2 (.inr hb) }
  | claim => exact { hs with resolved := fun e he => (mem_insert ..).2 (.inr he) }
  | postpone _ hsite hw =>
    refine { hs with unresolved := fun hq e he => ?_ }
    rcases Array.mem_push.1 he with he | rfl
    · exact .inl he
    · exact .inr (hw hq)
  | throughField => exact { hs with fieldDispatched := fun e he => (mem_insert ..).2 (.inr he) }

theorem Turn.sound (h : s.Turn p w s') (hs : s.Sound p) : s'.Sound p := by
  have hsane := (h.sane hs.toSane).1
  cases h with
  | step h => exact h.sound hs
  | skip | take | claim | throughField =>
    exact ⟨hsane, hs.ready, hs.cursor, hs.objects, hs.updates, hs.unresolved⟩
  | postpone _ hsite =>
    refine ⟨hsane, hs.ready, hs.cursor, hs.objects, hs.updates, fun d hd => ?_⟩
    rcases Array.mem_push.1 hd with hd | rfl
    · exact hs.unresolved d hd
    · exact ⟨_, hsite⟩

theorem Turns.evolves (h : s.Turns p w s') : Evolves w s s' := by
  induction h with
  | refl => exact .refl w s
  | tail _ h ih => exact ih.trans h.evolves

theorem Turns.precedes (h : s.Turns p w s') (hs : s.Sane p) : s.Precedes s' where
  extent := h.extent_le hs
  holds f hf := by
    cases f with
    | instantiated => exact h.evolves.instantiated _ hf
    | points n o =>
      rw [Holds, h.evolves.points]
      exact hf
    | resolved => exact h.evolves.resolved _ hf
    | fieldDispatched => exact h.evolves.fieldDispatched _ hf

/-- Only expansion instantiates anything. -/
theorem Turns.instantiated (h : s.Turns p w s') (hw : w.instantiates = false) :
    s'.instantiated = s.instantiated := by
  induction h with
  | refl => rfl
  | tail _ h ih => exact (h.instantiated hw).trans ih

theorem Steps.instantiated (h : s.Steps p w s') : s'.instantiated = s.instantiated := by
  induction h with
  | refl => rfl
  | tail _ h ih => exact h.instantiated.trans ih

/-- All findings are about what there is. -/
theorem Sound.hasFinding (hs : s.Sound p) {f : Finding} (hf : s.Holds f) :
    s.extent.HasFinding p f := by
  cases f with
  | instantiated => exact hs.recorded.instantiated _ hf
  | points n o => exact ⟨hs.ready.range n o hf, hs.objects n o hf⟩
  | resolved => exact hs.recorded.resolved _ hf
  | fieldDispatched => exact hs.recorded.fieldDispatched _ hf

theorem Turns.sound (h : s.Turns p w s') (hs : s.Sound p) : s'.Sound p := by
  induction h with
  | refl => exact hs
  | tail _ h ih => exact h.sound ih

theorem Steps.tables (h : s.Steps p w s') : s'.resolved = s.resolved ∧
    s'.unresolved = s.unresolved ∧ s'.fieldDispatched = s.fieldDispatched := by
  induction h with
  | refl => exact ⟨rfl, rfl, rfl⟩
  | tail _ h ih =>
    obtain ⟨hr, hu, hf⟩ := h.tables
    exact ⟨hr.trans ih.1, hu.trans ih.2.1, hf.trans ih.2.2⟩

end State

end PointsTo
