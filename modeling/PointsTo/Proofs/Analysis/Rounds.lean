import PointsTo.Proofs.Analysis.Dispatch
import PointsTo.Proofs.Analysis.Expand
import PointsTo.Proofs.Solver.Termination

/-! What holds between two rounds, and what the last round leaves behind. -/
namespace PointsTo

namespace State

variable {p : Problem} {w : Phase} {s s' : State} {found : Solution}

/-- What a solution has achieved. -/
structure Settles (p : Problem) (s : State) (found : Solution) (s' : State) : Prop where
  rest : s' = { s with
    graph := s'.graph, points := s'.points, cursor := s'.cursor, retrigger := ∅, updates := ∅ }
  graph : s.graph.Enlarges p.scene s'.graph
  points : ∀ n o, s.points.Has n o → s'.points.Has n o
  gives : ∀ n o, s.Gives n o → s'.points.Has n o
  changed : found.changed = true ↔ ∃ n o, s'.points.Has n o ∧ ¬ s.points.Has n o
  cursor : s'.cursor = s'.graph.addressEdges.size
  sound : s'.Sound p
  received : ∀ r ∈ found.receivers, ∀ o ∈ r.2, s'.points.Has r.1 o
  reports : ∀ n d o, s'.graph.Registers n d → s'.points.Has n o →
    n ∉ s.retrigger ∧ s.points.Has n o ∨ ∃ objects, (n, objects) ∈ found.receivers ∧ o ∈ objects

/-- Objects are nodes of the graph from the beginning of a solution on. -/
theorem Sound.within (hs : s.Sound p) :
    s.solver.Within p.scene fun _ o => o.index < s.graph.nodes.size where
  consistent := hs.graph
  range := hs.ready.range
  has := hs.objects
  copies _ _ _ _ h := h
  loads _ _ _ _ _ _ _ _ _ _ h := h
  stores _ _ _ _ _ _ _ _ _ _ h := h

/-- The objects to be added, in the order of the settings. -/
abbrev updatesOf (p : Problem) (s : State) : List (NodeId × ObjectSet) :=
  Run.updatesIn p.settings.updateOrder s.updates

/-- The solver has enough fuel for what it can find. -/
theorem Sound.ensures_solver (hs : s.Sound p) :
    Ensures (Solving.solve s.retrigger.toList (s.updatesOf p)) s.solver fun _ v' =>
      Solver.Solves s.retrigger.toList (s.updatesOf p) s.solver v' :=
  ⟨Solver.ensures_solve.1, (Solver.takes_solve hs.graph s.points s.cursor _ _).2⟩

theorem settles_of_solves (hs : s.Sound p) {v : Solver}
    (hrun : Solver.Solves s.retrigger.toList (s.updatesOf p) s.solver v) :
    s.Settles p ⟨v.changed, v.receivers.toList.map fun r => (r.1, r.2.toList)⟩
      { s with graph := v.graph, points := v.points, cursor := v.cursor
               retrigger := ∅, updates := ∅ } := by
  have h := hrun.solved hs.ready hs.within (fun a b he => (hs.graph.tables.lt_size he).1) ?_
  · have hsize : v.cursor = v.graph.addressEdges.size := by
      rw [h.extend.graph.addressEdges, h.cursor]
      have := hs.cursor
      simp only [solver]
      omega
    refine { rest := rfl, graph := h.extend.graph, points := h.extend.has
             gives := ?_, changed := ?_
             cursor := hsize, sound := ?_, received := ?_, reports := ?_ }
    · rintro n o (ho | ⟨set, hset, ho⟩)
      · exact h.extend.has n o ho
      · exact h.updates (n, set) (Run.mem_updatesIn.2 hset) o ho
    · rw [show (v.changed = true ↔ _) from h.extend.grew]
      simp [solver]
    · obtain ⟨hrange, hsettled, haddresses, hcopies, haccesses⟩ := h.ready
      have hle : s.extent ≤ ⟨v.graph.nodes.size, s.extent.sites, s.extent.contexts⟩ :=
        ⟨h.extend.graph.size_le, le_rfl, le_rfl⟩
      have hrecorded := hs.recorded.mono hle
      refine { graph := h.within.consistent, indexed := h.extend.graph.indexed hs.indexed
               sites := hs.sites, contexts := hs.contexts
               recorded := ?_, ready := ?_, cursor := Nat.le_of_eq hsize, objects := ?_
               updates := by simp, unresolved := hs.unresolved }
      · have hkeeps := h.extend.graph.keeps
        have hregisters {n d} := (h.extend.graph.registers_iff (n := n) (d := d)).1
        exact { hrecorded with
          registered := fun n d hd => hrecorded.registered n d (hregisters hd)
          waiting := fun n d hd => hrecorded.waiting n d (attaches_of_keeps hkeeps hregisters hd) }
      · exact ⟨hrange, hsettled, haddresses, hcopies, haccesses⟩
      · exact fun n o ho => h.extend.graph.lt_size (h.within.has n o ho)
    · intro r hr o ho
      obtain ⟨⟨n, objects⟩, hn, rfl⟩ := List.mem_map.1 hr
      rw [Std.TreeMap.mem_toList_iff_getElem?_eq_some] at hn
      refine (h.extend.reports n o ?_).resolve_left (by simp [Solver.Reported, solver])
      simpa [Solver.Reported, hn] using ho
    · intro n d o hd ho
      refine (h.reports n d o hd ho).imp (fun hknown => ?_) fun hreport => ?_
      · exact ⟨fun hn => hknown.1 (by simpa using hn), hknown.2⟩
      · cases hn : v.receivers[n]? with
        | none => simp [Solver.Reported, hn] at hreport
        | some objects =>
          refine ⟨objects.toList, List.mem_map.2 ⟨(n, objects), ?_, rfl⟩, ?_⟩
          · exact Std.TreeMap.mem_toList_iff_getElem?_eq_some.2 hn
          · simpa [Solver.Reported, hn] using hreport
  · rintro ⟨n, set⟩ hu
    exact hs.updates n set (Run.mem_updatesIn.1 hu)

theorem Settles.precedes (h : s.Settles p found s') : s.Precedes s' where
  extent := by
    refine ⟨h.graph.size_le, ?_⟩
    rw [h.rest]
    exact ⟨le_rfl, le_rfl⟩
  holds f hf := by
    cases f with
    | points n o => exact h.points n o hf
    | instantiated | resolved | fieldDispatched =>
      rw [h.rest]
      exact hf

/-- Nothing waits after a solution, unless methods are to be instantiated. -/
theorem Settles.hasPending (h : s.Settles p found s') : s'.hasPending = !s.agenda.isEmpty := by
  rw [h.rest]
  simp [State.hasPending]

/-- Every call that is attached to a node is resolved for every object of the node, unless the node
is to be told its objects again and the call has no target. -/
def Dispatched (s : State) : Prop :=
  ∀ n d o, s.graph.Registers n d → s.points.Has n o → s.graph.IsObject o →
    (d.1, d.2, o) ∈ s.resolved ∨ s.Mute d.1 ∧ n ∈ s.retrigger

/-- All calls that can be made with the objects at hand are made. -/
structure Answered (p : Problem) (s : State) : Prop extends Sound p s where
  dispatched : s.Dispatched
  attempts : s.Retried

/-- What holds between two rounds. -/
structure Between (p : Problem) (s : State) : Prop extends Answered p s where
  instances : s.Instances p

theorem Answered.retried (h : s.Answered p) (d : Dispatch) (hd : d ∈ s.unresolved)
    (site : DynamicSite) (hsite : s.calls.sites.dynamic? d.1 = some site)
    (hname : site.signature.name ≠ Name.pointerCall) (hfun : ¬ s.graph.IsFunction d.2.2)
    (x f : NodeId) (hx : s.graph.IsField x d.2.2 (.named site.signature.name))
    (hf : s.points.Has x f) (hff : s.graph.IsFunction f) :
    (site.id, d.2.1, f) ∈ s.fieldDispatched := by
  obtain ⟨y, hy, hall⟩ := h.attempts d hd site hsite hname hfun
  obtain rfl : y = x := hy.unique hx
  exact hall f hf hff

/-- The number of rounds and the agenda do not matter here. -/
theorem Answered.frame (h : s.Answered p) (rounds : Nat) {agenda : Queue Activation}
    (hagenda : ∀ a ∈ agenda.toList, s.extent.HasActivation p a) :
    ({ s with rounds, agenda } : State).Answered p where
  toSane := ⟨h.graph, h.indexed, h.sites, h.contexts, { h.recorded with agenda := hagenda }⟩
  ready := h.ready
  cursor := h.cursor
  objects := h.objects
  updates := h.updates
  unresolved := h.unresolved
  dispatched := h.dispatched
  attempts := h.attempts

theorem precedes_rounds (s : State) (rounds : Nat) : s.Precedes { s with rounds } :=
  ⟨le_rfl, fun _ h => h⟩

theorem retains_rounds (s : State) (rounds : Nat) : s.Retains p { s with rounds } :=
  { Retains.refl (p := p) s with }

theorem Between.withRounds (h : s.Between p) (rounds : Nat) : State.Between p { s with rounds } where
  toAnswered := h.toAnswered.frame rounds h.recorded.agenda
  instances := h.instances.retains (retains_rounds s rounds)
    (h.toAnswered.frame rounds h.recorded.agenda).toSane rfl

theorem Settles.retains (h : s.Settles p found s') (hs : s.Sane p) : s.Retains p s' := by
  have hr : s.Retains p s := .refl s
  have hgraph := h.graph.persists
  have hgives : ∀ n o, s.Gives n o → s'.Gives n o := fun n o ho => .inl (h.gives n o ho)
  rw [h.rest] at hgives ⊢
  refine { hr with graph := hgraph, nodeOf := fun c v n hn => ?_, gives := hgives }
  exact hgraph.nodeOf? hs.graph h.sound.graph hn

theorem Settles.instances (h : s.Settles p found s') (hs : s.Sane p) (hall : s.Instances p) :
    s'.Instances p :=
  hall.retains (h.retains hs) h.sound.toSane (by rw [h.rest])

theorem Dispatched.evolves (h : s.Dispatched) (he : Evolves w s s') (hs : s.Sound p)
    (hw : w.instantiates = false) : s'.Dispatched := by
  intro n d o hd ho hobj
  rw [he.points] at ho
  rcases he.registers n d hd with hd | ⟨hn, hmute⟩
  · refine (h n d o hd ho (he.graph.isObject_of_lt (hs.objects n o ho) hobj)).imp
      (he.resolved _) fun ⟨hmute, hn⟩ => ⟨hmute.mono he.sites, he.retrigger n hn⟩
  · exact .inr ⟨hmute.resolve_left (Bool.eq_false_iff.1 hw), hn⟩

theorem FieldDone.settles {site : DynamicSite} {c : ContextId} {o : NodeId}
    (h : s.FieldDone site c o) (hset : s.Settles p found s') (hs : s.Sound p)
    (hsame : ∀ n o, s'.points.Has n o → s.points.Has n o) : s'.FieldDone site c o := by
  intro hname hfun
  have hp := hset.graph.persists
  obtain ⟨x, hx, hall⟩ := h hname fun ho => hfun (hp.isFunction ho)
  refine ⟨x, hp.isField hx, fun f hf hff => ?_⟩
  have hold := hsame x f hf
  rw [hset.rest]
  exact hall f hold (hp.isFunction_of_lt (hs.objects x f hold) hff)

end State

namespace Run
open State

variable {p : Problem} {w : Phase} {s s' : State} {found : Solution}

theorem ensures_solve (hs : s.Sound p) : Ensures (solve p) s fun found s' => s.Settles p found s' := by
  refine ensures_modifyGet_bind ?_
  have hrun := hs.ensures_solver
  constructor
  · intro found s' h
    simp only [solveWith] at h
    split at h
    · next hok =>
      cases h
      exact settles_of_solves hs (hrun.1 hok)
    · cases h
  · intro e s' h he
    simp only [solveWith] at h
    split at h
    · cases h
    · next herror =>
      cases h
      exact hrun.2 herror he

/-- The dispatch of a round resolves whatever the solution has reported. -/
theorem ensures_receivers (hs : s.Sound p) (hw : w.instantiates = false)
    (hrange : ∀ r ∈ found.receivers, ∀ o ∈ r.2, o.index < s.graph.nodes.size)
    (hreports : ∀ n d o, s.graph.Registers n d → s.points.Has n o → s.graph.IsObject o →
      (d.1, d.2, o) ∈ s.resolved ∨ ∃ objects, (n, objects) ∈ found.receivers ∧ o ∈ objects)
    (hquiet : w = .quiet → ∀ r ∈ found.receivers, ∀ o ∈ r.2, s.graph.IsObject o →
      ∀ d, s.graph.Registers r.1 d → (d.1, d.2, o) ∈ s.resolved ∨ s.Mute d.1) :
    Ensures (found.receivers.forM fun (n, objects) => discard (receive p n objects)) s
      fun _ s' => s.Moves p w s' ∧ s'.Dispatched := by
  have hloop := ensures_forM_rest (L := fun _ => False) (s := s)
    (f := fun (n, objects) => discard (receive p n objects))
    (I := fun rest t => s.Moves p w t ∧ (∀ r ∈ rest, r ∈ found.receivers) ∧
      ∀ n d o, t.graph.Registers n d → t.points.Has n o → t.graph.IsObject o →
        (d.1, d.2, o) ∈ t.resolved ∨ t.Mute d.1 ∧ n ∈ t.retrigger ∨
          ∃ objects, (n, objects) ∈ rest ∧ o ∈ objects)
    found.receivers ⟨.refl, fun _ h => h, fun n d o hd ho hobj =>
      (hreports n d o hd ho hobj).imp_right .inr⟩ ?_
  · refine hloop.mono fun _ s' ⟨h', _, hall⟩ => ⟨h', fun n d o hd ho hobj => ?_⟩
    exact (hall n d o hd ho hobj).imp_right fun h => h.resolve_right (by simp)
  · rintro ⟨n, objects⟩ rest t ⟨ht, hsub, hall⟩
    have hev := ht.turns.evolves
    have hst := ht.turns.sound hs
    have hmem := hsub _ (.head _)
    refine ensures_discard ((ensures_receive (w := w) (Phase.ne_expansion hw) hst (fun hq o ho hobj d hd => ?_)
      fun o ho => hev.graph.lt_size (hrange _ hmem o ho)).mono fun _ t' ht' => ?_)
    · rcases hev.registers n d hd with hd | ⟨-, hmute⟩
      · have hobj' := hev.graph.isObject_of_lt (hrange _ hmem o ho) hobj
        exact (hquiet hq _ hmem o ho hobj' d hd).imp (hev.resolved _) fun hm => hm.mono hev.sites
      · exact .inr (hmute.resolve_left (Bool.eq_false_iff.1 hw))
    · obtain ⟨ht', hdone⟩ := ht'
      have hev' := ht'.turns.evolves
      refine ⟨ht.trans ht' hs.toSane, fun r hr => hsub r (.tail _ hr), fun m d o hd ho hobj => ?_⟩
      rw [hev'.points] at ho
      rcases hev'.registers m d hd with hd | ⟨hm, hmute⟩
      · have hobj' := hev'.graph.isObject_of_lt (hst.objects m o ho) hobj
        rcases hall m d o hd ho hobj' with hres | ⟨hmute, hm⟩ | ⟨objects', hin, ho'⟩
        · exact .inl (hev'.resolved _ hres)
        · exact .inr (.inl ⟨hmute.mono hev'.sites, hev'.retrigger m hm⟩)
        · rcases List.mem_cons.1 hin with heq | hin
          · cases heq
            exact .inl (hdone o ho' hobj' d hd)
          · exact .inr (.inr ⟨objects', hin, ho'⟩)
      · exact .inr (.inl ⟨hmute.resolve_left (Bool.eq_false_iff.1 hw), hm⟩)

/-- Without new objects, a solution leaves the dispatch of calls as complete as it was. -/
theorem quiet_of_same (hs : s.Answered p) (hset : s.Settles p found s')
    (hsame : ∀ n o, s'.points.Has n o → s.points.Has n o) :
    (∀ n d o, s'.graph.Registers n d → s'.points.Has n o → s'.graph.IsObject o →
      (d.1, d.2, o) ∈ s'.resolved ∨ s'.Mute d.1) ∧ s'.Retried := by
  constructor
  · intro n d o hd ho hobj
    rw [hset.graph.registers_iff] at hd
    rw [hset.graph.isObject_iff] at hobj
    rw [hset.rest]
    exact (hs.dispatched n d o hd (hsame n o ho) hobj).imp_right And.left
  · intro d hd site hsite
    rw [hset.rest] at hd hsite
    exact (hs.attempts d hd site hsite).settles hset hs.toSound hsame

/-- The dispatch of a round after its solution. If the solution has found nothing new and the calls
were dispatched before, no address edge is added. -/
theorem ensures_dispatchRound {β : Type} {m : Run β} {R : β → State → Prop}
    (hset : s.Settles p found s') (hw : w.instantiates = false)
    (hexcused : ∀ n d o, s.graph.Registers n d → s.points.Has n o → s.graph.IsObject o →
      (d.1, d.2, o) ∈ s.resolved ∨ n ∈ s.retrigger)
    (hquiet : w = .quiet → s.Answered p ∧ found.changed = false)
    (h : ∀ s'', s'.Moves p w s'' → s''.Answered p → Ensures m s'' R) : Ensures (do
      found.receivers.forM fun (n, objects) => discard (receive p n objects)
      let _ ← retry p
      m) s' R := by
  have hsame : w = .quiet → ∀ n o, s'.points.Has n o → s.points.Has n o := by
    refine fun hq n o ho => Decidable.byContradiction fun hnew => ?_
    have hchanged := hset.changed.2 ⟨n, o, ho, hnew⟩
    simp [(hquiet hq).2] at hchanged
  refine ensures_bind (ensures_receivers (w := w) hset.sound hw ?_ ?_ ?_) ?_
  · exact fun r hr o ho => hset.sound.objects _ o (hset.received r hr o ho)
  · intro n d o hd ho hobj
    refine (hset.reports n d o hd ho).imp_left fun ⟨hn, hold⟩ => ?_
    rw [hset.graph.registers_iff] at hd
    rw [hset.graph.isObject_iff] at hobj
    rw [hset.rest]
    exact (hexcused n d o hd hold hobj).resolve_right hn
  · intro hq r hr o ho hobj d hd
    exact (quiet_of_same (hquiet hq).1 hset (hsame hq)).1 r.1 d o hd (hset.received r hr o ho) hobj
  rintro _ s₁ ⟨h₁, hdispatched⟩
  have hs₁ := h₁.turns.sound hset.sound
  have hev₁ := h₁.turns.evolves
  refine ensures_bind (ensures_retry (w := w) (Phase.ne_expansion hw) hs₁ fun hq d hd site hsite => ?_)
    fun _ s₂ h₂ => ?_
  · rcases hev₁.unresolved hq d hd with hd | hmute
    · obtain ⟨site', hsite'⟩ := hset.sound.unresolved d hd
      cases Option.some.inj ((hev₁.sites.dynamic? hsite').symm.trans hsite)
      have hdone := (quiet_of_same (hquiet hq).1 hset (hsame hq)).2 d hd site hsite'
      exact .inr (hdone.evolves hev₁ hset.sound)
    · exact .inl (hmute.target hsite)
  · obtain ⟨h₂, hretried⟩ := h₂
    exact h s₂ (h₁.trans h₂ hset.sound.toSane)
      ⟨h₂.turns.sound hs₁, hdispatched.evolves h₂.turns.evolves hs₁ hw, hretried⟩

/-- Something was learned in a round after which there is more to do. -/
theorem learns_of_again {s₁ s₂ s₃ : State} {reached : Bool} (hs : s.Sane p)
    (h₁ : s.Turns p .expansion s₁) (hexpanded : Expanded s false reached s₁)
    (hset : s₁.Settles p found s₂) (h₃ : s₂.Moves p w s₃)
    (hagain : (reached || found.changed || s₃.hasPending) = true) : s.Learns s₃ := by
  have hp₁ := h₁.precedes hs
  have hp₃ := h₃.turns.precedes hset.sound.toSane
  cases hexpanded with
  | reached hlearns => exact hlearns.precedes (hset.precedes.trans hp₃)
  | idle hnil =>
    rcases Bool.or_eq_true_iff.1 hagain with hchanged | hpending
    · obtain ⟨n, o, ho, hnew⟩ := hset.changed.1 (by simpa using hchanged)
      exact hp₁.learns (Learns.precedes ⟨.points n o, ho, hnew⟩ hp₃)
    · rcases h₃.learns with hsame | hlearns
      · rw [hsame, hset.hasPending] at hpending
        simp [Queue.isEmpty_iff.2 hnil] at hpending
      · exact (hp₁.trans hset.precedes).learns hlearns

/-- What a round comes to. Only a round that has learned something asks for another one, and the last
one has seen all address edges. A round that instantiates something connects all captured variables
with the instances that they have by then. -/
structure Completes (p : Problem) (fuel : Nat) (s : State) (again : Bool) (s' : State) : Prop where
  between : s'.Between p
  precedes : s.Precedes s'
  retains : s.Retains p s'
  learns : again = true → s.Learns s'
  ends : again = false → s'.cursor = s'.graph.addressEdges.size ∧ s'.hasPending = false
  links : ∀ s₁, drainAgenda p fuel false { s with rounds := s.rounds + 1 } = .ok true s₁ →
    s₁.Retains p s' ∧ s₁.Links p s'

theorem ensures_round {fuel : Nat} (hs : s.Between p) :
    EnsuresOr (fun s' => drainAgenda p fuel false { s with rounds := s.rounds + 1 } =
      .error .outOfFuel s') (round p fuel) s fun again s' => Completes p fuel s again s' := by
  refine ensures_modify_bind ?_
  have hs₀ := hs.withRounds (s.rounds + 1)
  have h₀ := precedes_rounds s (s.rounds + 1)
  refine ensures_bind (ensures_expand hs₀.toSane) ?_
  rintro reached s₁ ⟨h₁, hexpanded, hlinks⟩
  have hev := h₁.turns.evolves
  have hs₁ := h₁.turns.sound hs₀.toSound
  have hp₁ := h₀.trans (h₁.turns.precedes hs₀.toSane)
  have hr₁ := (retains_rounds s (s.rounds + 1)).trans (h₁.turns.retains hs₀.toSane)
  refine ensures_bind (ensures_solve hs₁).toOr fun found s₂ hset => ?_
  have hp₂ := hp₁.trans hset.precedes
  obtain ⟨w, hw, hquiet⟩ : ∃ w : Phase, w.instantiates = false ∧
      (w = .quiet ↔ (reached || found.changed) = false) := by
    cases h : reached || found.changed with
    | true => exact ⟨.dispatch, by decide, by decide⟩
    | false => exact ⟨.quiet, by decide, by decide⟩
  refine (ensures_dispatchRound (w := w) hset hw ?_ ?_ fun s₃ h₃ hs₃ => ?_).toOr
  · intro n d o hd ho hobj
    rw [hev.points] at ho
    rcases hev.registers n d hd with hd | ⟨hn, -⟩
    · have hobj' := hev.graph.isObject_of_lt (hs₀.objects n o ho) hobj
      exact (hs₀.dispatched n d o hd ho hobj').imp (hev.resolved _) fun h => hev.retrigger n h.2
    · exact .inr hn
  · intro hq
    obtain ⟨rfl, hchanged⟩ := Bool.or_eq_false_iff.1 (hquiet.1 hq)
    cases hexpanded with
    | idle hnil => exact ⟨hs.toAnswered.frame (s.rounds + 1) (by simp [hnil]), hchanged⟩
  have hr₃ := h₃.turns.retains hset.sound.toSane
  have hlater := (hset.retains hs₁.toSane).trans hr₃
  have hinstances := hset.instances hs₁.toSane (h₁.instances hs₀.instances)
  refine ensures_get_bind (ensures_pure ?_)
  exact {
    between := {
      toAnswered := hs₃
      instances := hinstances.retains hr₃ hs₃.toSane (h₃.turns.instantiated hw) }
    precedes := hp₂.trans (h₃.turns.precedes hset.sound.toSane)
    retains := hr₁.trans hlater
    learns := fun hagain => h₀.learns
      (learns_of_again hs₀.toSane h₁.turns hexpanded hset h₃ hagain)
    ends := fun hagain => by
      obtain ⟨hfound, hpending⟩ := Bool.or_eq_false_iff.1 hagain
      have hev₃ := h₃.turns.evolves
      refine ⟨?_, hpending⟩
      rw [hev₃.cursor, hset.cursor, hev₃.addresses (hquiet.2 hfound)]
    links := fun t ht => by
      obtain ⟨hretains, hall⟩ := hlinks t ht
      exact ⟨hretains.trans hlater, fun a ha capture hc => (hall a ha capture hc).retains hlater⟩ }

/-- A round that runs out of fuel has lost nothing. -/
theorem ensures_round_precedes {fuel : Nat} (hs : s.Between p) :
    EnsuresOr (fun s' => s.Precedes s') (round p fuel) s fun again s' =>
      Completes p fuel s again s' := by
  refine (ensures_round hs).weaken fun s' h' => ?_
  have hs₀ := hs.withRounds (s.rounds + 1)
  have hturns := (ensures_drainAgenda hs₀.toSane).2 h' rfl
  exact (precedes_rounds s _).trans (Turns.precedes hturns hs₀.toSane)

end Run

end PointsTo
