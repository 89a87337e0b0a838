import PointsTo.Proofs.Solver.Passing

/-! Runs of the solver: when nothing is queued, every edge has passed on what it should. -/
namespace PointsTo.Solver

/-- Every node has handed on the objects that count as passed on, apart from those that `due`
excuses. Objects in `known` need not be reported. -/
structure Settled (known due : NodeId → NodeId → Prop) (v : Solver) : Prop where
  queued : ∀ n o, v.points.Owes n o → n ∈ v.queue.toList
  copies : ∀ a b o, v.graph.CopyEdge a b → v.points.Passed a o → due a o ∨ v.points.Has b o
  accesses : ∀ r b key o, v.graph.IsFieldRef r b key → v.points.Passed b o → v.graph.IsObject o →
    due b o ∨ Served v.graph r key o v.graph
  reports : ∀ n d o, v.graph.Registers n d → v.points.Passed n o →
    due n o ∨ known n o ∨ v.Reported n o

variable {s : Scene} {D : Family} {v v' : Solver} {known due due' : NodeId → NodeId → Prop}
  {retrigger : List NodeId} {updates : List (NodeId × ObjectSet)}

theorem Served.enlarges {g g' g₁ : FlowGraph} {r o : NodeId} {key : FieldKey}
    (h : Served g r key o g₁) (hg : g.Enlarges s g') : Served g' r key o g₁ :=
  ⟨fun d hd => h.1 d ((hg.edge_iff (by decide)).1 hd),
    fun a ha => h.2 a ((hg.edge_iff (by decide)).1 ha)⟩

theorem Settled.advances (h : Settled known due v) (ha : Advances s D v v') :
    Settled known due v' where
  queued n o ho := by
    rcases ha.owes n o ho with ho | hq
    · exact ha.queue n (h.queued n o ho)
    · exact hq
  copies a b o hc ho := by
    rcases ha.copies a b hc with hc | hp
    · exact (h.copies a b o hc ((ha.passed a o).1 ho)).imp_right (ha.has b o)
    · exact .inr (hp o ho)
  accesses r b key o hr ho hobj := by
    have hserved := h.accesses r b key o (ha.graph.isFieldRef_iff.1 hr) ((ha.passed b o).1 ho)
      (ha.graph.isObject_iff.1 hobj)
    exact hserved.imp_right fun hs => (hs.enlarges ha.graph).mono ha.graph
  reports n d o hd ho := by
    refine (h.reports n d o (ha.graph.registers_iff.1 hd) ((ha.passed n o).1 ho)).imp_right ?_
    exact Or.imp_right (ha.reported n o)

theorem Settled.mono (h : Settled known due v)
    (hdue : ∀ a o, v.points.Passed a o → due a o → due' a o) : Settled known due' v where
  queued := h.queued
  copies a b o hc ho := (h.copies a b o hc ho).imp_left (hdue a o ho)
  accesses r b key o hr ho hobj := (h.accesses r b key o hr ho hobj).imp_left (hdue b o ho)
  reports n d o hd ho := (h.reports n d o hd ho).imp_left (hdue n o ho)

/-- A node that has handed on the objects `P` no longer needs the excuse for them. -/
theorem Settled.handed {n : NodeId} {P : NodeId → Prop} (h : Settled known due v)
    (ha : Advances s D v v') (hh : Handed v.graph n P v')
    (hdue : ∀ a o, v.points.Passed a o → due a o → due' a o ∨ (a = n ∧ P o)) :
    Settled known due' v' := by
  have h' := h.advances ha
  refine ⟨h'.queued, ?_, ?_, ?_⟩
  · intro a b o hc ho
    rcases h'.copies a b o hc ho with hd | hb
    · rcases hdue a o ((ha.passed a o).1 ho) hd with hd | ⟨rfl, hP⟩
      · exact .inl hd
      · rcases ha.copies a b hc with hc | hp
        · exact .inr (hh.copies b o hc hP)
        · exact .inr (hp o ho)
    · exact .inr hb
  · intro r b key o hr ho hobj
    rcases h'.accesses r b key o hr ho hobj with hd | hs
    · rcases hdue b o ((ha.passed b o).1 ho) hd with hd | ⟨rfl, hP⟩
      · exact .inl hd
      · refine .inr (Served.enlarges (hh.accesses r key o ?_ hP ?_) ha.graph)
        · exact ha.graph.isFieldRef_iff.1 hr
        · exact ha.graph.isObject_iff.1 hobj
    · exact .inr hs
  · intro n d o hd ho
    rcases h'.reports n d o hd ho with hdue' | hr
    · rcases hdue n o ((ha.passed n o).1 ho) hdue' with hdue' | ⟨rfl, hP⟩
      · exact .inl hdue'
      · exact .inr (.inr (hh.reports d o (ha.graph.registers_iff.1 hd) hP))
    · exact .inr hr

/-- Nothing is excused. -/
abbrev SettledAll (known : NodeId → NodeId → Prop) (v : Solver) : Prop :=
  Settled known (fun _ _ => False) v

/-- A node that is taken from the queue passes on what it has pending. -/
theorem ensures_process (h : v.Within s D) (hs : SettledAll known v) {n : NodeId}
    {q : Queue NodeId} (hq : ∀ m ∈ v.queue.toList, m = n ∨ m ∈ q.toList) :
    Ensures (Solving.process n) { v with queue := q } fun _ v' =>
      Extends s D v v' ∧ SettledAll known v' := by
  refine ensures_get_bind ?_
  dsimp only
  split
  · refine ensures_modify_bind ?_
    have hhas : ∀ m o, (v.points.flush n).Has m o ↔ v.points.Has m o :=
      fun _ _ => DiffTable.has_flush
    have hwithin : ({ v with queue := q, points := v.points.flush n } : Solver).Within s D :=
      ⟨h.consistent, fun m o ho => h.range m o ((hhas m o).1 ho),
        fun m o ho => h.has m o ((hhas m o).1 ho), h.copies, h.loads, h.stores⟩
    have hext : Extends s D v { v with queue := q, points := v.points.flush n } :=
      { graph := .refl h.consistent, has := fun m o ho => (hhas m o).2 ho, grew := by simp [hhas]
        within := hwithin, cursor := rfl, reported := fun _ _ h => h
        reports := fun _ _ h => .inl h }
    have hset : Settled known (fun a o => a = n ∧ v.points.Owes n o)
        { v with queue := q, points := v.points.flush n } := by
      refine ⟨fun m o ho => ?_, fun a b o hc ho => ?_, fun r b key o hr ho hobj => ?_,
        fun m d o hd ho => ?_⟩
      · obtain ⟨ho, hm⟩ := DiffTable.owes_flush.1 ho
        exact (hq m (hs.queued m o ho)).resolve_left hm
      · rcases DiffTable.passed_flush.1 ho with ho | hdue
        · exact .inr ((hhas b o).2 ((hs.copies a b o hc ho).resolve_left id))
        · exact .inl hdue
      · rcases DiffTable.passed_flush.1 ho with ho | hdue
        · exact .inr ((hs.accesses r b key o hr ho hobj).resolve_left id)
        · exact .inl hdue
      · rcases DiffTable.passed_flush.1 ho with ho | hdue
        · exact .inr ((hs.reports m d o hd ho).resolve_left id)
        · exact .inl hdue
    refine (ensures_propagate hwithin fun o ho => ?_).mono ?_
    · exact (hhas n o).2 (DiffTable.has_iff.2 (.inr ho))
    · rintro _ v' ⟨ha, hh⟩
      exact ⟨hext.trans ha.toExtends, hset.handed ha hh fun a o _ hdue => .inr hdue⟩
  · next hpend =>
    refine ensures_pure ⟨?_, ⟨fun m o ho => ?_, hs.copies, hs.accesses, hs.reports⟩⟩
    · exact { graph := .refl h.consistent, has := fun _ _ h => h, grew := by simp
              within := ⟨h.consistent, h.range, h.has, h.copies, h.loads, h.stores⟩
              cursor := rfl, reported := fun _ _ h => h, reports := fun _ _ h => .inl h }
    · refine (hq m (hs.queued m o ho)).resolve_left ?_
      rintro rfl
      exact hpend (DiffTable.hasPending_iff.2 ⟨o, ho⟩)

/-- The queue is emptied in some order: any entry may be the next one. -/
inductive Works : Solver → Solver → Prop where
  | done {v : Solver} : v.queue.toList = [] → Works v v
  | step {v v₁ v' : Solver} {n : NodeId} {q : Queue NodeId} :
      (n :: q.toList).Perm v.queue.toList →
      Solving.process n { v with queue := q } = .ok () v₁ → Works v₁ v' → Works v v'

theorem ensures_drain {fuel : Nat} :
    EnsuresOr (fun _ => True) (Solving.drain fuel) v fun _ v' => Works v v' := by
  induction fuel generalizing v with
  | zero => exact ensures_throw fun _ => trivial
  | succ fuel ih =>
    refine ensures_get_bind ?_
    split
    · next hpop => exact ensures_pure (.done ((Queue.pop?_eq_none_iff _).1 hpop))
    · next n q hpop =>
      refine ensures_modify_bind ?_
      refine ensures_bind ensures_self fun _ v₁ h₁ => ?_
      exact ih.mono fun _ v' h' => .step (.of_eq (Queue.toList_of_pop? hpop).symm) h₁ h'

/-- Whatever the order, nothing is left to be passed on at the end. -/
theorem Works.settled (hrun : Works v v') (h : v.Within s D) (hs : SettledAll known v) :
    Extends s D v v' ∧ SettledAll known v' ∧ ∀ n o, ¬ v'.points.Owes n o := by
  induction hrun with
  | done hq =>
    refine ⟨.refl h, hs, fun n o ho => ?_⟩
    have := hs.queued n o ho
    rw [hq] at this
    cases this
  | step hperm hstep _ ih =>
    have hq : ∀ m ∈ _, m = _ ∨ m ∈ _ := fun m hm => List.mem_cons.1 (hperm.mem_iff.2 hm)
    obtain ⟨hext, hs₁⟩ := (ensures_process h hs hq).1 hstep
    obtain ⟨hext', hs', howes⟩ := ih hext.within hs₁
    exact ⟨hext.trans hext', hs', howes⟩

theorem Within.withCursor (h : v.Within s D) (c : Nat) :
    ({ v with cursor := c } : Solver).Within s D :=
  ⟨h.consistent, h.range, h.has, h.copies, h.loads, h.stores⟩

/-- The cursor does not matter for what is passed on. -/
theorem Advances.withCursor (h : Advances s D v v') (c : Nat) :
    Advances s D { v with cursor := c } { v' with cursor := c } where
  graph := h.graph
  has := h.has
  grew := h.grew
  within := h.within.withCursor _
  cursor := rfl
  reported := h.reported
  reports := h.reports
  passed := h.passed
  owes := h.owes
  queue := h.queue
  copies := h.copies

/-- Every listed edge puts its source into the set of its target. -/
theorem ensures_addAddresses {l : List EdgeId} (h : v.Within s D)
    (hl : ∀ i ∈ l, ∀ e, v.graph.edge? i = some e → D (v.graph.holder e.target) e.source) :
    Ensures (Solving.addAddresses l) v fun _ v' =>
      Advances s D v { v' with cursor := v.cursor } ∧ v'.graph = v.graph ∧
      v'.cursor = v.cursor + l.length ∧
      ∀ i ∈ l, ∀ e, v.graph.edge? i = some e → v'.points.Has e.target e.source := by
  induction l generalizing v with
  | nil => exact ensures_pure ⟨.refl h, rfl, rfl, by simp⟩
  | cons i l ih =>
    refine ensures_modify_bind ?_
    refine ensures_get_bind ?_
    have hrest : ∀ v₁, Advances s D v { v₁ with cursor := v.cursor } → v₁.graph = v.graph →
        v₁.cursor = v.cursor + 1 → v₁.Within s D →
        (∀ e, v.graph.edge? i = some e → v₁.points.Has e.target e.source) →
        Ensures (Solving.addAddresses l) v₁ fun _ v' =>
          Advances s D v { v' with cursor := v.cursor } ∧ v'.graph = v.graph ∧
          v'.cursor = v.cursor + (i :: l).length ∧
          ∀ j ∈ i :: l, ∀ e, v.graph.edge? j = some e → v'.points.Has e.target e.source := by
      intro v₁ ha hg hc hw hhas
      refine (ih hw ?_).mono ?_
      · intro j hj e he
        rw [hg] at he ⊢
        exact hl j (.tail _ hj) e he
      · rintro _ v₂ ⟨ha₂, hg₂, hc₂, hhas₂⟩
        refine ⟨ha.trans (ha₂.withCursor v.cursor), hg₂.trans hg, ?_, ?_⟩
        · rw [hc₂, hc, List.length_cons]
          omega
        · intro j hj e he
          rcases List.mem_cons.1 hj with rfl | hj
          · exact ha₂.has _ _ (hhas e he)
          · exact hhas₂ j hj e (by rwa [hg])
    dsimp only
    split
    · next e hi =>
      have hrange : e.target.index < v.graph.nodes.size :=
        (h.consistent.tables.ends e (Array.mem_iff_getElem?.2 ⟨i.index, hi⟩)).2
      refine ensures_bind (ensures_grow (h.withCursor (v.cursor + 1))
        (DiffTable.add_gains v.points e.target e.source) hrange ?_) ?_
      · rintro _ rfl
        exact hl i (.head _) e hi
      · rintro _ v₁ ⟨ha, hg, hhas⟩
        refine hrest v₁ (ha.withCursor v.cursor) hg ha.cursor ha.within fun e' he' => ?_
        rw [hi] at he'
        cases he'
        exact hhas e.source rfl
    · next hi =>
      refine hrest _ (.refl h) rfl rfl (h.withCursor _) fun e he => ?_
      exact absurd he (hi e)

/-- What is left to do is announced: by address edges after the cursor, and by nodes that have to
pass on their whole set again. -/
structure Ready (retrigger : List NodeId) (v : Solver) : Prop where
  range : ∀ n o, v.points.Has n o → n.index < v.graph.nodes.size
  settled : ∀ n o, ¬ v.points.Owes n o
  addresses : ∀ i ∈ v.graph.addressEdges.toList.take v.cursor, ∀ e, v.graph.edge? i = some e →
    v.points.Has e.target e.source
  copies : ∀ a b o, v.graph.CopyEdge a b → v.points.Has a o → a ∈ retrigger ∨ v.points.Has b o
  accesses : ∀ r b key o, v.graph.IsFieldRef r b key → v.points.Has b o → v.graph.IsObject o →
    b ∈ retrigger ∨ Served v.graph r key o v.graph

/-- What a node with calls need not be told again: objects from before the run, unless the node
passes on its whole set again. -/
def Known (v : Solver) (retrigger : List NodeId) (n o : NodeId) : Prop :=
  n ∉ retrigger ∧ v.points.Has n o

theorem Ready.toSettled (h : Ready retrigger v) :
    Settled (v.Known retrigger) (fun a _ => a ∈ retrigger) v where
  queued n o ho := absurd ho (h.settled n o)
  copies a b o hc ho := h.copies a b o hc (DiffTable.has_iff.2 (.inl ho))
  accesses r b key o hr ho := h.accesses r b key o hr (DiffTable.has_iff.2 (.inl ho))
  reports n d o _ ho := by
    by_cases hn : n ∈ retrigger
    · exact .inl hn
    · exact .inr (.inl ⟨hn, DiffTable.has_iff.2 (.inl ho)⟩)

/-- The start of a run from `v` up to `v'`, where the nodes in `rest` have not passed on their sets
again. -/
private structure Started (s : Scene) (D : Family) (known : NodeId → NodeId → Prop)
    (v : Solver) (rest : List NodeId) (v' : Solver) : Prop where
  extend : Extends s D v { v' with cursor := v.cursor }
  within : v'.Within s D
  settled : Settled known (fun a _ => a ∈ rest) v'
  cursor : v'.cursor = v.cursor + (v.graph.addressEdges.toList.drop v.cursor).length

private theorem Started.advances {rest : List NodeId} {v₁ v₂ : Solver}
    (h : Started s D known v rest v₁) (ha : Advances s D v₁ v₂) : Started s D known v rest v₂ where
  extend := h.extend.trans (ha.withCursor v.cursor).toExtends
  within := ha.within
  settled := h.settled.advances ha
  cursor := ha.cursor.trans h.cursor

theorem ensures_start (h : v.Within s D) (hs : Settled known (fun a _ => a ∈ retrigger) v)
    (haddr : ∀ a b, v.graph.Edge a b .address → D (v.graph.holder b) a)
    (hupd : ∀ u ∈ updates, u.1.index < v.graph.nodes.size ∧
      ∀ o, u.2.contains o = true → D (v.graph.holder u.1) o) :
    Ensures (Solving.start retrigger updates) v fun _ v' =>
      Extends s D v { v' with cursor := v.cursor } ∧ v'.Within s D ∧ SettledAll known v' ∧
      v'.cursor = v.cursor + (v.graph.addressEdges.toList.drop v.cursor).length ∧
      (∀ i ∈ v.graph.addressEdges.toList.drop v.cursor, ∀ e, v.graph.edge? i = some e →
        v'.points.Has e.target e.source) ∧
      ∀ u ∈ updates, ∀ o, u.2.contains o = true → v'.points.Has u.1 o := by
  refine ensures_get_bind ?_
  refine ensures_bind (ensures_addAddresses h fun i hi e he => ?_) ?_
  · obtain ⟨e', he', hk⟩ := (h.consistent.tables.addresses i).1
      (by simpa using List.mem_of_mem_drop hi)
    rw [he] at he'
    cases he'
    exact haddr e.source e.target ⟨e, Array.mem_iff_getElem?.2 ⟨i.index, he⟩, rfl, rfl, hk⟩
  · rintro _ v₁ ⟨ha, hg, hc, hhas⟩
    have hs₁ := hs.advances ha
    have hstart : Started s D known v retrigger v₁ :=
      ⟨ha.toExtends, ⟨ha.within.consistent, ha.within.range, ha.within.has, ha.within.copies,
        ha.within.loads, ha.within.stores⟩, ⟨hs₁.queued, hs₁.copies, hs₁.accesses, hs₁.reports⟩,
        hc⟩
    refine ensures_bind (ensures_forM_each
      (I := fun v' => Started s D known v retrigger v' ∧ ∀ n o, v₁.points.Has n o → v'.points.Has n o)
      (P := fun u v' => ∀ o, u.2.contains o = true → v'.points.Has u.1 o) updates
      ⟨hstart, fun _ _ h => h⟩ fun u hu v₂ h₂ => ?_) ?_
    · obtain ⟨hrange, hD⟩ := hupd u hu
      have hholder : v₂.graph.holder u.1 = v.graph.holder u.1 := h₂.1.extend.graph.holder hrange
      refine (ensures_join h₂.1.within (h₂.1.extend.graph.lt_size hrange) ?_).mono ?_
      · rw [hholder]
        exact hD
      · rintro _ v₃ ⟨ha₃, -, hhas₃⟩
        exact ⟨⟨h₂.1.advances ha₃, fun n o ho => ha₃.has n o (h₂.2 n o ho)⟩, hhas₃,
          fun u' hu' o ho => ha₃.has _ o (hu' o ho)⟩
    · rintro _ v₂ ⟨⟨h₂, hmono⟩, hup, -⟩
      refine (ensures_forM_rest (I := fun rest v' => Started s D known v rest v' ∧
        ∀ n o, v₂.points.Has n o → v'.points.Has n o) retrigger ⟨h₂, fun _ _ h => h⟩ ?_).mono ?_
      · rintro n rest v₃ ⟨h₃, hmono₃⟩
        refine ensures_get_bind ?_
        dsimp only
        split
        · refine (ensures_propagate h₃.within fun o ho => ho).mono ?_
          rintro _ v₄ ⟨ha₄, hh⟩
          refine ⟨{ h₃.advances ha₄ with settled := h₃.settled.handed ha₄ hh ?_ },
            fun m o ho => ha₄.has m o (hmono₃ m o ho)⟩
          intro a o hp hdue
          rcases List.mem_cons.1 hdue with rfl | hdue
          · exact .inr ⟨rfl, DiffTable.has_iff.2 (.inl hp)⟩
          · exact .inl hdue
        · next hempty =>
          refine ensures_pure ⟨{ h₃ with settled := h₃.settled.mono ?_ }, hmono₃⟩
          intro a o hp hdue
          rcases List.mem_cons.1 hdue with rfl | hdue
          · have hno := ObjectSet.isEmpty_iff.1 (by simpa using hempty) o
            rw [DiffTable.has_iff.2 (.inl hp)] at hno
            cases hno
          · exact hdue
      · rintro _ v' ⟨h', hmono'⟩
        refine ⟨h'.extend, h'.within, ?_, h'.cursor, ?_, ?_⟩
        · exact ⟨h'.settled.queued, by simpa using h'.settled.copies,
            by simpa using h'.settled.accesses, by simpa using h'.settled.reports⟩
        · intro i hi e he
          exact hmono' _ _ (hmono _ _ (hhas i hi e he))
        · intro u hu o ho
          exact hmono' _ _ (hup u hu o ho)

/-- A run of the solver in which the queue is emptied in any order. -/
def Solves (retrigger : List NodeId) (updates : List (NodeId × ObjectSet)) (v v' : Solver) :
    Prop :=
  ∃ v₁, Solving.start retrigger updates v = .ok () v₁ ∧ Works v₁ v'

theorem ensures_solve : EnsuresOr (fun _ => True) (Solving.solve retrigger updates) v fun _ v' =>
      Solves retrigger updates v v' := by
  refine ensures_get_bind ?_
  refine ensures_bind ensures_self fun _ v₁ h₁ => ?_
  exact ensures_drain.mono fun _ v' h' => ⟨v₁, h₁, h'⟩

/-- What a run of the solver from `v` has achieved in `v'`. -/
structure Solved (s : Scene) (D : Family) (retrigger : List NodeId)
    (updates : List (NodeId × ObjectSet)) (v v' : Solver) : Prop where
  extend : Extends s D v { v' with cursor := v.cursor }
  within : v'.Within s D
  cursor : v'.cursor = v.cursor + (v.graph.addressEdges.size - v.cursor)
  /-- No edge has anything left to pass on. -/
  ready : Ready [] v'
  updates : ∀ u ∈ updates, ∀ o, u.2.contains o = true → v'.points.Has u.1 o
  reports : ∀ n d o, v'.graph.Registers n d → v'.points.Has n o →
    v.Known retrigger n o ∨ v'.Reported n o

theorem Solves.solved (hrun : Solves retrigger updates v v') (h : Ready retrigger v)
    (hw : v.Within s D) (haddr : ∀ a b, v.graph.Edge a b .address → D (v.graph.holder b) a)
    (hupd : ∀ u ∈ updates, u.1.index < v.graph.nodes.size ∧
      ∀ o, u.2.contains o = true → D (v.graph.holder u.1) o) :
    Solved s D retrigger updates v v' := by
  obtain ⟨v₁, hstart, hwork⟩ := hrun
  obtain ⟨hext, hw₁, hs₁, hc₁, hedges, hup⟩ :=
    (ensures_start hw h.toSettled haddr hupd).1 hstart
  obtain ⟨hext', hs', howes⟩ := hwork.settled hw₁ hs₁
  have hpassed : ∀ n o, v'.points.Has n o → v'.points.Passed n o := fun n o ho =>
    (DiffTable.has_iff.1 ho).resolve_right (howes n o)
  have haddresses : v'.graph.addressEdges = v.graph.addressEdges :=
    hext'.graph.addressEdges.trans hext.graph.addressEdges
  have hcursor : v'.cursor = v.cursor + (v.graph.addressEdges.size - v.cursor) := by
    rw [hext'.cursor, hc₁, List.length_drop, Array.length_toList]
  refine { extend := ?_, within := hext'.within, cursor := hcursor, ready := ?_
           updates := fun u hu o ho => hext'.has _ _ (hup u hu o ho), reports := ?_ }
  · refine hext.trans ?_
    exact { graph := hext'.graph, has := hext'.has, grew := hext'.grew
            within := hext'.within.withCursor _, cursor := rfl, reported := hext'.reported
            reports := hext'.reports }
  · refine { range := hext'.within.range, settled := howes, addresses := ?_, copies := ?_
             accesses := ?_ }
    · intro i hi e he
      have hi : i ∈ v.graph.addressEdges.toList.take v.cursor ++
          v.graph.addressEdges.toList.drop v.cursor := by
        rw [List.take_append_drop, ← haddresses]
        exact List.mem_of_mem_take hi
      obtain ⟨e', he', -⟩ := (hw.consistent.tables.addresses i).1
        (by simpa [List.take_append_drop] using hi)
      cases Option.some.inj ((hext'.graph.edge? i e' (hext.graph.edge? i e' he')).symm.trans he)
      rcases List.mem_append.1 hi with hi | hi
      · exact hext'.has _ _ (hext.has _ _ (h.addresses i hi e he'))
      · exact hext'.has _ _ (hedges i hi e he')
    · intro a b o hc ho
      exact .inr ((hs'.copies a b o hc (hpassed a o ho)).resolve_left id)
    · intro r b key o hr ho hobj
      exact .inr ((hs'.accesses r b key o hr (hpassed b o ho) hobj).resolve_left id)
  · intro n d o hd ho
    exact (hs'.reports n d o hd (hpassed n o ho)).resolve_left id

/-- Every address edge has put its source into the set of its target. -/
theorem Solved.address (h : Solved s D retrigger updates v v') {o d : NodeId}
    (he : v'.graph.Edge o d .address) : v'.points.Has d o := by
  obtain ⟨e, he, rfl, rfl, hk⟩ := he
  obtain ⟨i, hi⟩ := Array.mem_iff_getElem?.1 he
  refine h.ready.addresses ⟨i⟩ ?_ e hi
  have hmem := (h.within.consistent.tables.addresses ⟨i⟩).2 ⟨e, hi, hk⟩
  have hsize : v'.graph.addressEdges.size ≤ v'.cursor := by
    rw [h.cursor, h.extend.graph.addressEdges]
    omega
  rw [List.take_of_length_le (by simpa using hsize)]
  simpa using hmem

end PointsTo.Solver
