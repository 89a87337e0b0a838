import Mathlib.Data.Finset.Card
import Mathlib.Data.Finset.Prod
import PointsTo.Proofs.Solver.Least
import PointsTo.Proofs.Solver.Positions

/-! The solver's loop ends whatever the points-to sets, the nodes to look at again and the objects
to add are, and in whatever order the queue is worked off: the loop makes nodes for parts of objects
and copy edges, but no objects and no field references, so that there is only so much to add. -/
namespace PointsTo

namespace FlowGraph

variable {s : Scene} {g g' g'' : FlowGraph}

/-- The nodes of a graph. -/
def nodeIds (g : FlowGraph) : Finset NodeId := (Finset.range g.nodes.size).image Ref.mk

/-- What can hold a set: the nodes, and the parts of objects that field references name. -/
def holders (g : FlowGraph) : Finset Holder :=
  g.nodeIds.image g.holder ∪
    (g.nodeIds ×ˢ (g.nodes.toList.filterMap Node.fieldRef?).toFinset).image fun x => .part x.1 x.2.2

theorem mem_nodeIds {n : NodeId} : n ∈ g.nodeIds ↔ n.index < g.nodes.size := by
  simp only [nodeIds, Finset.mem_image, Finset.mem_range]
  constructor
  · rintro ⟨i, hi, rfl⟩
    exact hi
  · exact fun hn => ⟨n.index, hn, rfl⟩

theorem holder_mem_holders {n : NodeId} (hn : n.index < g.nodes.size) : g.holder n ∈ g.holders :=
  Finset.mem_union_left _ (Finset.mem_image_of_mem _ (mem_nodeIds.2 hn))

theorem part_mem_holders {r b o : NodeId} {key : FieldKey} (hr : g.IsFieldRef r b key)
    (ho : o.index < g.nodes.size) : .part o key ∈ g.holders := by
  obtain ⟨a, ha, hk⟩ := hr
  refine Finset.mem_union_right _ (Finset.mem_image.2 ⟨(o, b, key), ?_, rfl⟩)
  refine Finset.mem_product.2 ⟨mem_nodeIds.2 ho, List.mem_toFinset.2 (List.mem_filterMap.2 ?_)⟩
  refine ⟨a, ?_, Node.fieldRef?_eq_some.2 hk⟩
  exact Array.mem_toList_iff.2 (Array.mem_iff_getElem?.2 ⟨r.index, ha⟩)

theorem card_nodeIds_le : g.nodeIds.card ≤ g.nodes.size := by
  simpa [nodeIds] using Finset.card_image_le (s := Finset.range g.nodes.size) (f := Ref.mk)

theorem card_holders_le : g.holders.card ≤ g.nodes.size + g.nodes.size * g.nodes.size := by
  have hkeys : (g.nodes.toList.filterMap Node.fieldRef?).toFinset.card ≤ g.nodes.size := by
    refine (List.toFinset_card_le _).trans ((List.length_filterMap_le ..).trans ?_)
    rw [Array.length_toList]
  refine (Finset.card_union_le _ _).trans (Nat.add_le_add ?_ ?_)
  · exact Finset.card_image_le.trans card_nodeIds_le
  · refine Finset.card_image_le.trans ?_
    rw [Finset.card_product]
    exact Nat.mul_le_mul card_nodeIds_le hkeys

/-- A location of a part of an object of the graph that a field reference of the graph names. -/
def NamesPart (g : FlowGraph) (l : Location) : Prop :=
  ∃ o key r b, l = .field o key ∧ g.IsObject o ∧ g.IsFieldRef r b key

/-- `g'` is `g` with more copy edges and with nodes for parts of its objects that it names. -/
structure Unfolds (s : Scene) (g g' : FlowGraph) : Prop extends g.Enlarges s g' where
  parts : Interns (fun _ l => g.NamesPart l) g g'

theorem Unfolds.refl (h : g.Consistent s) : g.Unfolds s g := ⟨.refl h, .refl g⟩

theorem Unfolds.trans (h : g.Unfolds s g') (h' : g'.Unfolds s g'') : g.Unfolds s g'' := by
  refine ⟨h.toEnlarges.trans h'.toEnlarges, h.parts.trans (h'.parts.mono fun _ l => ?_)⟩
  rintro ⟨o, key, r, b, hl, ho, hr⟩
  exact ⟨o, key, r, b, hl, h.isObject_iff.1 ho, h.isFieldRef_iff.1 hr⟩

/-- Every node holds a set that the first graph has room for. -/
theorem Unfolds.holder_mem (h : g.Unfolds s g') (hg : g.Consistent s) {n : NodeId}
    (hn : n.index < g'.nodes.size) : g'.holder n ∈ g.holders := by
  have ha : g'.At n _ := Array.getElem?_eq_getElem hn
  rcases h.parts _ _ n ((h.consistent.interned ..).2 ⟨_, ha, rfl, rfl⟩) with hold | hnew
  · obtain ⟨a, ha', -, hl⟩ := (hg.interned ..).1 hold
    rw [holder_eq_of_location ha' ha hl.symm]
    exact holder_mem_holders ha'.lt_size
  · obtain ⟨o, key, r, b, hl, ⟨x, hx, -⟩, hr⟩ := hnew
    rw [h.consistent.holder_of_isField (h.consistent.isField_iff.2 ⟨_, ha, hl⟩)]
    exact part_mem_holders hr hx.lt_size

theorem Unfolds.size_le_card (h : g.Unfolds s g') (hg : g.Consistent s) :
    g'.nodes.size ≤ g.holders.card := by
  have hinj : Function.Injective (Ref.mk : Nat → NodeId) := fun _ _ h => congrArg Ref.index h
  have hcard : g'.nodeIds.card = g'.nodes.size := by
    rw [nodeIds, Finset.card_image_of_injective _ hinj, Finset.card_range]
  rw [← hcard]
  refine Finset.card_le_card_of_injOn g'.holder (fun n hn => ?_) fun m _ n _ hmn => ?_
  · exact h.holder_mem hg (mem_nodeIds.1 hn)
  · exact h.consistent.holder_injective hmn

theorem interns_objectField {o : NodeId} {key : FieldKey} :
    Ensures (Growing.objectField o key) g fun _ g' =>
      Interns (fun _ l => l = .field o key) g g' := by
  refine ensures_node_bind fun a _ => ?_
  split
  · exact ensures_pure (.refl g)
  · refine ensures_bind ensures_intern ?_
    rintro x g₁ hg₁
    have hintern : Interns (fun _ l => l = .field o key) g g₁ := by
      rcases hg₁ with ⟨-, rfl⟩ | ⟨-, -, rfl⟩
      · exact .refl g₁
      · exact (interns_withNode _).mono fun _ _ hl => hl.2
    exact ensures_modify_bind (ensures_pure hintern)

/-- The part that a field reference denotes in an object gets a node. -/
theorem unfolds_fieldOf (h : g.Consistent s) {r o : NodeId} (ho : g.IsObject o) :
    Ensures (Growing.fieldOf r o) g fun x? g' =>
      g.Unfolds s g' ∧ ∀ x ∈ x?, x.index < g'.nodes.size := by
  refine ensures_node_bind fun a ha => ?_
  split
  · next b key hk =>
    refine ensures_bind ((ensures_objectField h).and interns_objectField) ?_
    rintro x g' ⟨⟨hgrow, hx, hnew⟩, hparts⟩
    have hr : g.IsFieldRef r b key := ⟨a, ha, Node.fieldRef?_eq_some.1 hk⟩
    refine ensures_pure ⟨⟨hgrow.enlarges hnew, hparts.mono fun _ l hl => ?_⟩, ?_⟩
    · exact ⟨o, key, r, b, hl, ho, hr⟩
    · rintro _ ⟨⟩
      obtain ⟨c, hc, -⟩ := hgrow.consistent.isField_iff.1 hx
      exact hc.lt_size
  · exact ensures_pure ⟨.refl h, nofun⟩

theorem unfolds_addEdge (h : g.Consistent s) {a b : NodeId} :
    Ensures (Growing.addEdge a b .copy none) g fun e? g' =>
      g.Unfolds s g' ∧ (e?.isSome = true → b.index < g'.nodes.size) := by
  refine ensures_addEdge.mono ?_
  rintro _ _ (⟨rfl, -, rfl⟩ | ⟨rfl, -, ha, hb, rfl⟩)
  · exact ⟨.refl h, nofun⟩
  · exact ⟨⟨Solver.enlarges_withEdge h ha hb, fun _ _ _ hn => .inl hn⟩, fun _ => hb⟩

end FlowGraph

namespace Solver

/-- Whatever is put on the queue has a new object in some set to show for it. -/
def Earns (v v' : Solver) : Prop :=
  ∃ new : List (NodeId × NodeId), new.Nodup ∧
    (∀ x ∈ new, v'.points.Has x.1 x.2 ∧ ¬ v.points.Has x.1 x.2) ∧
    v'.queue.toList.length ≤ v.queue.toList.length + new.length

section

variable {v v' v'' : Solver}

theorem earns_of_queue_eq (h : v'.queue = v.queue) : v.Earns v' := ⟨[], by simp, by simp, by simp [h]⟩

theorem Earns.trans (h : v.Earns v') (h' : v'.Earns v'')
    (hmono : ∀ n o, v.points.Has n o → v'.points.Has n o)
    (hmono' : ∀ n o, v'.points.Has n o → v''.points.Has n o) : v.Earns v'' := by
  obtain ⟨new, hnodup, hnew, hlen⟩ := h
  obtain ⟨new', hnodup', hnew', hlen'⟩ := h'
  refine ⟨new ++ new', List.nodup_append.2 ⟨hnodup, hnodup', ?_⟩, ?_, ?_⟩
  · rintro x hx _ hx' rfl
    exact (hnew' x hx').2 (hnew x hx).1
  · intro x hx
    rcases List.mem_append.1 hx with hx | hx
    · exact ⟨hmono' _ _ (hnew x hx).1, (hnew x hx).2⟩
    · exact ⟨(hnew' x hx).1, fun hv => (hnew' x hx).2 (hmono _ _ hv)⟩
  · rw [List.length_append]
    omega

end

/-- What a run that starts with the graph `graph` and the sets `points` keeps to. -/
structure Room where
  scene : Scene
  graph : FlowGraph
  points : DiffTable
  /-- The nodes whose sets may grow. -/
  targets : Finset NodeId
  /-- The objects that they may get. -/
  objects : Finset NodeId
  consistent : graph.Consistent scene
  nodes : ∀ n : NodeId, n.index < graph.holders.card → n ∈ targets

namespace Room

variable {r : Room} {v v' v'' : Solver} {α : Type} {n : NodeId} {objects : ObjectSet}
  {listed : List NodeId}

structure Admits (r : Room) (v : Solver) : Prop where
  graph : r.graph.Unfolds r.scene v.graph
  objects : ∀ n o, v.points.Has n o → o ∈ r.objects
  targets : ∀ n o, v.points.Has n o → r.points.Has n o ∨ n ∈ r.targets

/-- From `v` to `v'` sets only grow, a node is queued only where its set grew, and the graph unfolds
further. -/
structure Leads (r : Room) (v v' : Solver) : Prop where
  admits : r.Admits v → r.Admits v'
  has : ∀ n o, v.points.Has n o → v'.points.Has n o
  earns : v.Earns v'
  size_le : v.graph.nodes.size ≤ v'.graph.nodes.size

instance : Std.Refl r.Leads where
  refl _ := ⟨id, fun _ _ h => h, earns_of_queue_eq rfl, Nat.le_refl _⟩

instance : Trans r.Leads r.Leads r.Leads where
  trans h h' := ⟨h'.admits ∘ h.admits, fun n o ho => h'.has n o (h.has n o ho),
    h.earns.trans h'.earns h.has h'.has, h.size_le.trans h'.size_le⟩

instance : Preserves r.Admits r.Leads where
  preserves _ _ h := h.admits

theorem Admits.mem_targets (h : r.Admits v) (hn : n.index < v.graph.nodes.size) : n ∈ r.targets :=
  r.nodes n (Nat.lt_of_lt_of_le hn (h.graph.size_le_card r.consistent))

/-- Within the room, and without anything that is not earned. -/
abbrev Stays (r : Room) (m : Solving α) : Prop := Follows r.Admits r.Leads m

theorem leads_graph {g : FlowGraph} (h : v.graph.Unfolds r.scene g) :
    r.Leads v { v with graph := g } where
  admits hv := ⟨hv.graph.trans h, hv.objects, hv.targets⟩
  has _ _ ho := ho
  earns := earns_of_queue_eq rfl
  size_le := h.size_le

theorem leads_record {cursor : Nat} {receivers : Std.TreeMap NodeId (Std.TreeSet NodeId)} :
    r.Leads v { v with cursor, receivers } where
  admits hv := ⟨hv.graph, hv.objects, hv.targets⟩
  has _ _ ho := ho
  earns := earns_of_queue_eq rfl
  size_le := Nat.le_refl _

theorem stays_grow {f : DiffTable → Bool × DiffTable} {P : NodeId → Prop} (hn : n ∈ r.targets)
    (hf : ∀ t : DiffTable, t.Gains n P (f t)) (hP : ∀ o, P o → o ∈ r.objects) : r.Stays (Solving.grow n f) := by
  refine .modify fun v _ => ?_
  have hgains := hf v.points
  have hhas := hgains.has
  have hmono : ∀ m o, v.points.Has m o → (f v.points).2.Has m o := fun m o ho =>
    (hhas m o).2 (.inl ho)
  have hsets : r.Admits v → (∀ m o, (f v.points).2.Has m o → o ∈ r.objects) ∧
      ∀ m o, (f v.points).2.Has m o → r.points.Has m o ∨ m ∈ r.targets := by
    intro hv
    refine ⟨fun m o ho => ?_, fun m o ho => ?_⟩
    · rcases (hhas m o).1 ho with ho | ⟨-, ho⟩
      · exact hv.objects m o ho
      · exact hP o ho
    · rcases (hhas m o).1 ho with ho | ⟨rfl, -⟩
      · exact hv.targets m o ho
      · exact .inr hn
  dsimp only
  split
  · next hgrew =>
    obtain ⟨o, ho, hnew⟩ := hgains.grew.1 hgrew
    refine ⟨fun hv => ⟨hv.graph, (hsets hv).1, (hsets hv).2⟩, hmono, ⟨[(n, o)], ?_⟩, Nat.le_refl _⟩
    simpa using ⟨(hhas n o).2 (.inr ⟨rfl, ho⟩), hnew⟩
  · exact ⟨fun hv => ⟨hv.graph, (hsets hv).1, (hsets hv).2⟩, hmono, earns_of_queue_eq rfl,
      Nat.le_refl _⟩

theorem stays_join (hn : n ∈ r.targets) (ho : ∀ o, objects.contains o = true → o ∈ r.objects) :
    r.Stays (Solving.join n objects) :=
  stays_grow hn (fun t => t.join_gains n objects) ho

theorem leads_onGraph {m : Growing α} {Q : α → FlowGraph → Prop}
    (h : Ensures m v.graph fun a g => v.graph.Unfolds r.scene g ∧ Q a g) :
    Ensures (Solving.onGraph m) v fun a v' => r.Leads v v' ∧ Q a v'.graph := by
  refine (ensures_onGraph h).mono ?_
  rintro a _ ⟨g, ⟨hg, hQ⟩, rfl⟩
  exact ⟨leads_graph hg, hQ⟩

theorem stays_node_bind {f : Node → Solving α} (hf : ∀ a, r.Stays (f a)) :
    r.Stays (Solving.onGraph (Growing.node n) >>= f) :=
  fun v hv => ensures_onGraph_node_bind fun a _ => hf a v hv

/-- A new edge passes on what its source points to. -/
theorem stays_link {a b : NodeId} : r.Stays (do
    if (← Solving.onGraph (Growing.addEdge a b .copy none)).isSome then
      Solving.join b ((← get).points.get a)) := by
  intro v hv
  refine ensures_bind (leads_onGraph (FlowGraph.unfolds_addEdge hv.graph.consistent)) ?_
  rintro e? v₁ ⟨h₁, hb⟩
  have hv₁ := h₁.admits hv
  split
  · next he =>
    refine ensures_get_bind ((stays_join ?_ (hv₁.objects a) v₁ hv₁).mono fun _ _ h₂ => ?_)
    · exact hv₁.mem_targets (hb he)
    · exact Trans.trans h₁ h₂
  · exact ensures_pure h₁

theorem stays_connect {field : NodeId} {loads stores : List NodeId} :
    r.Stays (Solving.connect field loads stores) :=
  .bind (.forM fun _ _ => stays_link) fun _ => .forM fun _ _ => stays_link

theorem stays_access {fieldRef : NodeId} : r.Stays (Solving.access listed fieldRef) := by
  refine .bind .get fun v₀ => ?_
  dsimp only
  split
  · exact .pure ()
  refine .forM fun o _ v hv => ensures_onGraph_node_bind fun a ha => ?_
  split
  · next hobject =>
    refine ensures_bind (leads_onGraph (FlowGraph.unfolds_fieldOf hv.graph.consistent
      ⟨a, ha, hobject⟩)) ?_
    rintro x? v₁ ⟨h₁, -⟩
    split
    · exact (stays_connect v₁ (h₁.admits hv)).mono fun _ _ h₂ => Trans.trans h₁ h₂
    · exact ensures_pure h₁
  · exact ensures_pure (Std.Refl.refl v)

theorem stays_report : r.Stays (Solving.report n listed) := by
  refine stays_node_bind fun a => ?_
  dsimp only
  split
  · exact .modify fun _ _ => leads_record
  · exact .pure ()

theorem stays_propagate (ho : ∀ o, objects.contains o = true → o ∈ r.objects) :
    r.Stays (Solving.propagate n objects) := by
  intro v hv
  refine ensures_get_bind ?_
  refine Follows.bind (.forM fun x hx => stays_join ?_ ho) (fun _ => ?_) v hv
  · have hx := hv.graph.consistent.tables.mem_copySuccessors.1 hx
    exact hv.mem_targets (hv.graph.consistent.tables.lt_size_of_copyEdge hx).2
  · refine .bind .get fun _ => stays_node_bind fun a => ?_
    exact .bind (.forM fun _ _ => stays_access) fun _ => stays_report

theorem stays_process : r.Stays (Solving.process n) := by
  intro v hv
  refine ensures_get_bind ?_
  dsimp only
  split
  · have hflush : r.Leads v { v with points := v.points.flush n } :=
      { admits := fun hv => ⟨hv.graph, fun m o ho => hv.objects m o (DiffTable.has_flush.1 ho),
          fun m o ho => hv.targets m o (DiffTable.has_flush.1 ho)⟩
        has := fun m o ho => DiffTable.has_flush.2 ho
        earns := earns_of_queue_eq rfl
        size_le := Nat.le_refl _ }
    refine ensures_modify_bind ?_
    refine (stays_propagate ?_ _ (hflush.admits hv)).mono fun _ _ h₁ => Trans.trans hflush h₁
    exact fun o ho => hv.objects n o (DiffTable.has_iff.2 (.inr ho))
  · exact ensures_pure (Std.Refl.refl v)

theorem stays_addAddresses {edges : List EdgeId} (h : ∀ e ∈ edges, e ∈ r.graph.addressEdges)
    (hobjects : r.graph.nodeIds ⊆ r.objects) : r.Stays (Solving.addAddresses edges) := by
  induction edges with
  | nil => exact .pure ()
  | cons e edges ih =>
    have hrest := ih fun i hi => h i (.tail _ hi)
    refine .bind (.modify fun _ _ => leads_record) fun _ v hv => ensures_get_bind ?_
    split
    · next edge hedge =>
      -- the edge was there from the start
      obtain ⟨edge', hedge', -⟩ := (r.consistent.tables.addresses e).1 (h e (.head _))
      cases Option.some.inj ((hv.graph.edge? e edge' hedge').symm.trans hedge)
      have hends := r.consistent.tables.ends edge (Array.mem_of_getElem? hedge')
      refine Follows.bind (stays_grow ?_ (fun t => t.add_gains _ _) ?_) (fun _ => hrest) v hv
      · exact hv.mem_targets (hv.graph.lt_size hends.2)
      · rintro _ rfl
        exact hobjects (FlowGraph.mem_nodeIds.2 hends.1)
    · exact hrest v hv

theorem stays_start {retrigger : List NodeId} {updates : List (NodeId × ObjectSet)}
    (hobjects : r.graph.nodeIds ⊆ r.objects)
    (hupdates : ∀ u ∈ updates, u.1 ∈ r.targets ∧ ∀ o, u.2.contains o = true → o ∈ r.objects)
    (hv : r.Admits v) :
    Ensures (Solving.start retrigger updates) v fun _ v' => r.Leads v v' := by
  refine ensures_get_bind ?_
  refine Follows.bind (stays_addAddresses (fun e he => ?_) hobjects) (fun _ => ?_) v hv
  · rw [← hv.graph.addressEdges]
    exact Array.mem_toList_iff.1 (List.mem_of_mem_drop he)
  refine .bind (.forM fun u hu => stays_join (hupdates u hu).1 (hupdates u hu).2) fun _ => ?_
  refine .forM fun n _ v₁ hv₁ => ensures_get_bind ?_
  dsimp only
  split
  · exact stays_propagate (hv₁.objects n) v₁ hv₁
  · exact ensures_pure (Std.Refl.refl v₁)

open Classical in
/-- What can still be added. -/
noncomputable def missing (r : Room) (v : Solver) : Nat :=
  {x ∈ r.targets ×ˢ r.objects | ¬ v.points.Has x.1 x.2}.card

/-- Entries of the queue are earned by objects that are no longer missing. -/
theorem Leads.missing_le (h : r.Leads v v') (hv : r.Admits v)
    (hold : ∀ n o, r.points.Has n o → v.points.Has n o) :
    v'.queue.toList.length + r.missing v' ≤ v.queue.toList.length + r.missing v := by
  classical
  obtain ⟨new, hnodup, hnew, hlen⟩ := h.earns
  have hdisjoint : Disjoint {x ∈ r.targets ×ˢ r.objects | ¬ v'.points.Has x.1 x.2}
      new.toFinset := by
    refine Finset.disjoint_left.2 fun x hx hx' => ?_
    exact (Finset.mem_filter.1 hx).2 (hnew x (List.mem_toFinset.1 hx')).1
  have hsub : {x ∈ r.targets ×ˢ r.objects | ¬ v'.points.Has x.1 x.2} ∪ new.toFinset ⊆
      {x ∈ r.targets ×ˢ r.objects | ¬ v.points.Has x.1 x.2} := by
    intro x hx
    rcases Finset.mem_union.1 hx with hx | hx
    · obtain ⟨hmem, hnot⟩ := Finset.mem_filter.1 hx
      exact Finset.mem_filter.2 ⟨hmem, fun hhas => hnot (h.has _ _ hhas)⟩
    · obtain ⟨hhas, hnot⟩ := hnew x (List.mem_toFinset.1 hx)
      have hv' := h.admits hv
      refine Finset.mem_filter.2 ⟨Finset.mem_product.2 ⟨?_, hv'.objects _ _ hhas⟩, hnot⟩
      exact (hv'.targets _ _ hhas).resolve_left fun hr => hnot (hold _ _ hr)
  have hcard := Finset.card_le_card hsub
  rw [Finset.card_union_of_disjoint hdisjoint, List.toFinset_card_of_nodup hnodup] at hcard
  simp only [missing]
  omega

end Room

/-- `v'` is `v` after `k` nodes were taken from the queue, each of them in any place of it. -/
inductive Takes : (k : Nat) → Solver → Solver → Prop where
  | none {v : Solver} : Takes 0 v v
  | next {k : Nat} {v v₁ v' : Solver} {n : NodeId} {q : Queue NodeId} :
      (n :: q.toList).Perm v.queue.toList →
      Solving.process n { v with queue := q } = .ok () v₁ → Takes k v₁ v' → Takes (k + 1) v v'

/-- Each node that is taken from the queue leaves less to do. -/
theorem Takes.add_missing_le {r : Room} {k : Nat} {v v' : Solver} (h : Takes k v v')
    (hv : r.Admits v) (hold : ∀ n o, r.points.Has n o → v.points.Has n o) :
    r.Admits v' ∧ k + r.missing v' ≤ v.queue.toList.length + r.missing v := by
  induction h with
  | none => exact ⟨hv, by omega⟩
  | @next k v v₁ v' n q hperm hprocess _ ih =>
    have hvq : r.Admits { v with queue := q } := ⟨hv.graph, hv.objects, hv.targets⟩
    have hlead := (Room.stays_process _ hvq).1 hprocess
    obtain ⟨hv', hle⟩ := ih (hlead.admits hvq) fun n o ho => hlead.has n o (hold n o ho)
    have hless : v₁.queue.toList.length + r.missing v₁ ≤ q.toList.length + r.missing v :=
      hlead.missing_le hvq hold
    have hlen := hperm.length_eq
    rw [List.length_cons] at hlen
    exact ⟨hv', by omega⟩

/-- The loop takes the nodes in the order of the queue, and when it runs out of fuel, it has taken as
many as it had fuel for. -/
theorem takes_drain {r : Room} (fuel : Nat) {v : Solver} (hv : r.Admits v) :
    EnsuresOr (fun v' => Takes fuel v v') (Solving.drain fuel) v fun _ v' => ∃ k, Takes k v v' := by
  induction fuel generalizing v with
  | zero => exact ensures_throw fun _ => .none
  | succ fuel ih =>
    refine ensures_get_bind ?_
    split
    · exact ensures_pure ⟨0, .none⟩
    · next n q hpop =>
      have hperm : (n :: q.toList).Perm v.queue.toList := .of_eq (Queue.toList_of_pop? hpop).symm
      have hvq : r.Admits { v with queue := q } := ⟨hv.graph, hv.objects, hv.targets⟩
      refine ensures_modify_bind ?_
      refine ensures_bind (Ensures.toOr (Room.stays_process _ hvq)).runs ?_
      rintro _ v₁ ⟨hlead, hv₁⟩
      refine ((ih (hlead.admits hvq)).mono ?_).weaken fun v' hk => .next hperm hv₁ hk
      rintro _ v' ⟨k, hk⟩
      exact ⟨k + 1, .next hperm hv₁ hk⟩

end Solver

section Counting

/-- The number of objects in some sets, with repetitions. -/
theorem length_flatMap_toList (l : List (NodeId × ObjectSet)) :
    (l.flatMap fun e => e.2.toList).length = l.foldr (fun e n => e.2.toList.length + n) 0 := by
  induction l with
  | nil => rfl
  | cons e l ih => rw [List.flatMap_cons, List.length_append, ih, List.foldr_cons]

/-- The objects in some sets. -/
def objectsIn (l : List (NodeId × ObjectSet)) : Finset NodeId :=
  (l.flatMap fun e => e.2.toList).toFinset

theorem mem_objectsIn {l : List (NodeId × ObjectSet)} {o : NodeId} :
    o ∈ objectsIn l ↔ ∃ e ∈ l, e.2.contains o = true := by
  simp [objectsIn, ObjectSet.mem_toList]

theorem card_objectsIn_le (l : List (NodeId × ObjectSet)) :
    (objectsIn l).card ≤ l.foldr (fun e n => e.2.toList.length + n) 0 := by
  rw [← length_flatMap_toList]
  exact List.toFinset_card_le _

/-- All objects that are in a set of the table. -/
def DiffTable.objects (t : DiffTable) : Finset NodeId :=
  objectsIn t.settled.toList ∪ objectsIn t.pending.toList

theorem DiffTable.Has.mem_objects {t : DiffTable} {n o : NodeId} (h : t.Has n o) :
    o ∈ t.objects := by
  have hlisted : ∀ m : Std.TreeMap NodeId ObjectSet,
      ((m[n]?).getD t.collection.empty).contains o = true → o ∈ objectsIn m.toList := by
    intro m hm
    cases hs : m[n]? with
    | none => simp [hs] at hm
    | some s =>
      rw [hs, Option.getD_some] at hm
      exact mem_objectsIn.2 ⟨(n, s), Std.TreeMap.mem_toList_iff_getElem?_eq_some.2 hs, hm⟩
  rcases has_iff.1 h with h | h
  · exact Finset.mem_union_left _ (hlisted _ h)
  · exact Finset.mem_union_right _ (hlisted _ h)

theorem DiffTable.card_objects_le (t : DiffTable) : t.objects.card ≤ t.weight :=
  (Finset.card_union_le _ _).trans
    (Nat.add_le_add (card_objectsIn_le _) (card_objectsIn_le _))

end Counting

namespace Solver

variable {s : Scene} {g : FlowGraph}

/-- The room that a run has. -/
def room (hg : g.Consistent s) (t : DiffTable) (updates : List (NodeId × ObjectSet)) : Room where
  scene := s
  graph := g
  points := t
  targets := (Finset.range g.holders.card).image Ref.mk ∪ (updates.map (·.1)).toFinset
  objects := g.nodeIds ∪ (t.objects ∪ objectsIn updates)
  consistent := hg
  nodes n hn := Finset.mem_union_left _ (Finset.mem_image.2 ⟨n.index, Finset.mem_range.2 hn, rfl⟩)

/-- The budget is more than there is room for. -/
theorem card_room_lt_budget (hg : g.Consistent s) (t : DiffTable) (cursor : Nat)
    (updates : List (NodeId × ObjectSet)) :
    ((room hg t updates).targets ×ˢ (room hg t updates).objects).card <
      Solving.budget { graph := g, points := t, cursor } updates := by
  have hobjects : (room hg t updates).objects.card ≤
      g.nodes.size + (t.weight + updates.foldr (fun u n => u.2.toList.length + n) 0) :=
    (Finset.card_union_le _ _).trans (Nat.add_le_add FlowGraph.card_nodeIds_le
      ((Finset.card_union_le _ _).trans (Nat.add_le_add t.card_objects_le (card_objectsIn_le _))))
  have htargets : (room hg t updates).targets.card ≤
      g.nodes.size + g.nodes.size * g.nodes.size + updates.length := by
    refine (Finset.card_union_le _ _).trans (Nat.add_le_add ?_ ?_)
    · refine Finset.card_image_le.trans ?_
      rw [Finset.card_range]
      exact FlowGraph.card_holders_le
    · exact (List.toFinset_card_le _).trans (by rw [List.length_map])
  rw [Finset.card_product]
  refine Nat.lt_succ_of_le (Nat.mul_le_mul (htargets.trans ?_) hobjects)
  exact Nat.add_le_add_right
    (Nat.add_le_add_left (Nat.mul_le_mul_left _ (Nat.le_add_right _ _)) _) _

theorem admits_room (hg : g.Consistent s) (t : DiffTable) (cursor : Nat)
    (updates : List (NodeId × ObjectSet)) :
    (room hg t updates).Admits { graph := g, points := t, cursor } where
  graph := .refl hg
  objects _ _ ho := Finset.mem_union_right _ (Finset.mem_union_left _ ho.mem_objects)
  targets _ _ ho := .inl ho

variable {retrigger : List NodeId} {updates : List (NodeId × ObjectSet)} {t : DiffTable}
  {cursor : Nat}

theorem leads_start (hg : g.Consistent s) :
    Ensures (Solving.start retrigger updates) { graph := g, points := t, cursor } fun _ v' =>
      (room hg t updates).Leads { graph := g, points := t, cursor } v' := by
  refine Room.stays_start Finset.subset_union_left (fun u hu => ⟨?_, fun o ho => ?_⟩)
    (admits_room hg t cursor updates)
  · exact Finset.mem_union_right _ (List.mem_toFinset.2 (List.mem_map_of_mem hu))
  · refine Finset.mem_union_right _ (Finset.mem_union_right _ ?_)
    exact mem_objectsIn.2 ⟨u, hu, ho⟩

/-- After the start, fewer nodes are taken than the budget allows for. -/
theorem Takes.lt_budget (hg : g.Consistent s) {v₁ v' : Solver} {k : Nat}
    (hstart : Solving.start retrigger updates { graph := g, points := t, cursor } = .ok () v₁)
    (h : Takes k v₁ v') : (room hg t updates).Admits v' ∧
      k < Solving.budget { graph := g, points := t, cursor } updates := by
  have hroom := admits_room hg t cursor updates
  have hlead := (leads_start hg).1 hstart
  obtain ⟨hv', hle⟩ := h.add_missing_le (hlead.admits hroom) hlead.has
  have hless : v₁.queue.toList.length + (room hg t updates).missing v₁ ≤
      0 + (room hg t updates).missing { graph := g, points := t, cursor } :=
    hlead.missing_le hroom fun _ _ ho => ho
  have hcard : (room hg t updates).missing { graph := g, points := t, cursor } ≤
      ((room hg t updates).targets ×ˢ (room hg t updates).objects).card := by
    classical
    exact Finset.card_filter_le _ _
  have hbudget := card_room_lt_budget hg t cursor updates
  exact ⟨hv', by omega⟩

/-- Solving comes to an end by taking nodes from the queue, and not for want of fuel. -/
theorem takes_solve (hg : g.Consistent s) (t : DiffTable) (cursor : Nat) (retrigger : List NodeId)
    (updates : List (NodeId × ObjectSet)) :
    Ensures (Solving.solve retrigger updates) { graph := g, points := t, cursor } fun _ v' =>
      ∃ v₁ k, Solving.start retrigger updates { graph := g, points := t, cursor } = .ok () v₁ ∧
        Takes k v₁ v' := by
  refine ensures_get_bind (ensures_bind (leads_start hg).runs ?_)
  rintro _ v₁ ⟨hlead, hstart⟩
  have hdrain := takes_drain (Solving.budget { graph := g, points := t, cursor } updates)
    (hlead.admits (admits_room hg t cursor updates))
  refine (hdrain.weaken fun v' htakes => ?_).mono ?_
  · exact Nat.lt_irrefl _ (htakes.lt_budget hg hstart).2
  · rintro _ v' ⟨k, hk⟩
    exact ⟨v₁, k, hstart, hk⟩

end Solver

open Solver in
/-- Solving ends on every graph and with any sets, cursor, nodes to look at again and objects to add:
it does not run out of fuel, and it returns where all nodes exist. In whatever order nodes are taken
from the queue, fewer are taken than the budget says. On the way no object and no field reference is
made: new nodes are parts of the objects of the graph by the keys of its field references, and new
edges are copy edges. -/
theorem Solving.solve_terminates {s : Scene} {g : FlowGraph} (hg : g.Made s) (t : DiffTable)
    (cursor : Nat) (retrigger : List NodeId) (updates : List (NodeId × ObjectSet)) :
    let v : Solver := { graph := g, points := t, cursor }
    (∀ v', solve retrigger updates v ≠ .error .outOfFuel v') ∧
      (∀ k : Table → Nat, 0 < k .context → s.WellFormed → v.InRange s k →
        (∀ n ∈ retrigger, g.HasNode n) →
        (∀ u ∈ updates, g.HasNode u.1 ∧ u.2.Refs (s.Within (g.sizes k))) →
        ∃ v', solve retrigger updates v = .ok () v') ∧
      (∀ v', solve retrigger updates v = .ok () v' →
        ∃ v₁ k, start retrigger updates v = .ok () v₁ ∧ Takes k v₁ v') ∧
      ∀ v₁ k v', start retrigger updates v = .ok () v₁ → Takes k v₁ v' →
        k < budget v updates ∧
        (∀ o, v'.graph.IsObject o ↔ g.IsObject o) ∧
        (∀ r b key, v'.graph.IsFieldRef r b key ↔ g.IsFieldRef r b key) ∧
        (∀ n a, v'.graph.At n a → n.index < g.nodes.size ∨ a.kind = .objectField ∧
          ∃ o key r b, a.location = .field o key ∧ g.IsObject o ∧ g.IsFieldRef r b key) ∧
        ∀ a b kind, v'.graph.Edge a b kind → g.Edge a b kind ∨ kind = .copy := by
  intro v
  have hg := hg.consistent
  have hsolve := takes_solve hg t cursor retrigger updates
  have hfuel : ∀ v', solve retrigger updates v ≠ .error .outOfFuel v' :=
    fun v' hv' => hsolve.2 hv' rfl
  refine ⟨hfuel, fun k hk hs hv hr hu => ?_, fun v' hv' => hsolve.1 hv', ?_⟩
  · have hsolve : (watch s k ⟨False, True⟩).Runs v (solve retrigger updates) :=
      watch_solve (fun n hn _ => hr n hn) fun u hmem =>
        ⟨fun _ => (hu u hmem).1, fun o ho => ⟨False.elim, fun _ => (hu u hmem).2 o ho⟩⟩
    have hout := hsolve ⟨False.elim, fun _ => ⟨hk, hv⟩⟩
    cases hrun : solve retrigger updates v with
    | ok _ v' => exact ⟨v', rfl⟩
    | error e v' =>
      rw [hrun] at hout
      cases hout with
      | error _ hfails =>
        rcases (hfails.2 trivial).1 with rfl | ⟨-, hnot⟩
        · exact absurd hrun (hfuel v')
        · exact absurd hs hnot
  · intro v₁ k v' hstart htakes
    obtain ⟨hroom, hlt⟩ := htakes.lt_budget hg hstart
    have hunfolds : g.Unfolds s v'.graph := hroom.graph
    refine ⟨hlt, fun o => hunfolds.isObject_iff, fun r b key => hunfolds.isFieldRef_iff,
      fun n a ha => ?_, hunfolds.newEdges⟩
    rcases hunfolds.fresh n a ha with ⟨b, hb⟩ | ⟨hkind, -⟩
    · exact .inl hb.lt_size
    · rcases hunfolds.parts _ _ n ((hunfolds.consistent.interned ..).2 ⟨a, ha, rfl, rfl⟩) with
        hold | hpart
      · obtain ⟨b, hb, -⟩ := (hg.interned ..).1 hold
        exact .inl hb.lt_size
      · exact .inr ⟨hkind, hpart⟩

/-- A variable is stored in a part of what it points to, and gets back what is read from there. -/
private def selfStore : Growing Unit := do
  let object ← Growing.synthetic .empty (.receiver ⟨0⟩) none
  let base ← Growing.temporary .empty ⟨0⟩
  let part ← Growing.fieldRef base (.named "next")
  let _ ← Growing.addEdge object base .address none
  let _ ← Growing.addEdge base part .write none
  let _ ← Growing.addEdge part base .load none

private def selfStoreGraph : FlowGraph :=
  match selfStore {} with
  | .ok _ g | .error _ g => g

private theorem made_selfStore : FlowGraph.Made {} selfStoreGraph := by
  refine ⟨selfStore, ?_, rfl⟩
  refine .bind (.synthetic ..) fun _ => .bind (.temporary ..) fun _ => .bind (.fieldRef ..) fun _ =>
    .bind (.addEdge ..) fun _ => .bind (.addEdge ..) fun _ => .bind (.addEdge ..) fun _ => .pure ()

/-- The object gets a part, which is the only new node, and two copy edges. -/
theorem Solving.solve_terminates_self_store : ∃ (g : FlowGraph) (v' : Solver),
    FlowGraph.Made {} g ∧
    solve [] [] { graph := g, points := .empty .dense, cursor := 0 } = .ok () v' ∧
    v'.graph.nodes.size = g.nodes.size + 1 ∧ v'.graph.edges.size = g.edges.size + 2 ∧
    ∀ n a, v'.graph.At n a → n.index < g.nodes.size ∨ a.kind = .objectField ∧
      ∃ o key r b, a.location = .field o key ∧ g.IsObject o ∧ g.IsFieldRef r b key := by
  obtain ⟨-, -, htakes, hnew⟩ := solve_terminates made_selfStore (.empty .dense) 0 [] []
  obtain ⟨_, v', hv', hsize⟩ := exists_of_endsWith
    (r := solve [] [] { graph := selfStoreGraph, points := .empty .dense, cursor := 0 })
    (q := fun _ v => v.graph.nodes.size == selfStoreGraph.nodes.size + 1 &&
      v.graph.edges.size == selfStoreGraph.edges.size + 2) (by decide +kernel)
  rw [Bool.and_eq_true, beq_iff_eq, beq_iff_eq] at hsize
  obtain ⟨v₁, k, hstart, hk⟩ := htakes v' hv'
  exact ⟨_, v', made_selfStore, hv', hsize.1, hsize.2, (hnew v₁ k v' hstart hk).2.2.2.1⟩

end PointsTo
