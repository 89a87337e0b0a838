import PointsTo.Proofs.Call.Sites
import PointsTo.Proofs.Flow.Changes

/-! The call graph only grows, and what a summary takes for allocations are some. -/
namespace PointsTo

namespace CallGraph

/-- `g'` has every node, edge and site of `g` in its place. Nodes may get classified. -/
structure Extends (g g' : CallGraph) : Prop where
  nodes : ∀ (i : Nat) n, g.nodes[i]? = some n → ∃ n', g'.nodes[i]? = some n' ∧
    n'.method = n.method ∧ (n.kind = .blank ∨ n'.kind = n.kind)
  edges : ∀ (i : Nat) e, g.edges[i]? = some e → g'.edges[i]? = some e
  sites : ∀ i site, g.sites.get? i = some site → g'.sites.get? i = some site

variable {g g' g'' : CallGraph} {scene : Scene} {m caller callee : MethodId}

theorem Extends.refl (g : CallGraph) : g.Extends g :=
  ⟨fun _ n hn => ⟨n, hn, rfl, .inr rfl⟩, fun _ _ h => h, fun _ _ h => h⟩

theorem Extends.trans (h : g.Extends g') (h' : g'.Extends g'') : g.Extends g'' where
  nodes i n hn := by
    obtain ⟨n₁, hn₁, hmethod₁, hkind₁⟩ := h.nodes i n hn
    obtain ⟨n₂, hn₂, hmethod₂, hkind₂⟩ := h'.nodes i n₁ hn₁
    refine ⟨n₂, hn₂, hmethod₂.trans hmethod₁, ?_⟩
    rcases hkind₁ with hkind | heq
    · exact .inl hkind
    · exact hkind₂.imp heq.symm.trans fun h => h.trans heq
  edges i e he := h'.edges i e (h.edges i e he)
  sites i site hsite := h'.sites i site (h.sites i site hsite)

theorem Extends.dynamic? (h : g.Extends g') {i : SiteId} {site : DynamicSite}
    (hsite : g.sites.dynamic? i = some site) : g'.sites.dynamic? i = some site :=
  SiteTable.dynamic?_eq_some.2 (h.sites i _ (SiteTable.dynamic?_eq_some.1 hsite))

theorem extends_sites {sites : SiteTable} (h : g.sites.Grows sites)
    (stmtSites : Std.TreeMap StmtId (List SiteId)) : g.Extends { g with sites, stmtSites } :=
  ⟨fun _ n hn => ⟨n, hn, rfl, .inr rfl⟩, fun _ _ h => h, h.keeps⟩

theorem extends_touch : g.Extends (g.touch m).2 := by
  unfold touch
  split
  · exact .refl g
  · exact ⟨fun i n hn => ⟨n, getElem?_push_of_eq_some hn, rfl, .inr rfl⟩, fun _ _ h => h,
      fun _ _ h => h⟩

theorem extends_addNode {kind : MethodKind} : g.Extends (g.addNode m kind).2 := by
  refine (extends_touch (m := m)).trans ⟨fun i n hn => ?_, fun _ _ h => h, fun _ _ h => h⟩
  dsimp only [addNode]
  rw [Array.getElem?_modify, hn]
  split
  · refine ⟨_, rfl, ?_⟩
    dsimp only
    split
    · next hblank => exact ⟨rfl, .inl hblank⟩
    · exact ⟨rfl, .inr rfl⟩
  · exact ⟨n, rfl, rfl, .inr rfl⟩

theorem extends_addEdge {site : SiteId} {type : CallType} :
    g.Extends (g.addEdge site caller callee type).2 := by
  refine (extends_touch (m := caller)).trans ((extends_touch (m := callee)).trans ?_)
  unfold addEdge
  dsimp only
  split
  · exact .refl _
  · exact ⟨fun _ n hn => ⟨n, hn, rfl, .inr rfl⟩, fun _ _ he => getElem?_push_of_eq_some he,
      fun _ _ h => h⟩

theorem extends_addSites {stmt : StmtId} {signature : Signature} {args : List CallArg}
    {target receiver : Option ValueId} {callees : List MethodId} :
    g.Extends (g.addSites stmt signature args target receiver caller callees).2 := by
  induction callees generalizing g with
  | nil => exact .refl g
  | cons callee rest ih => exact (extends_sites SiteTable.addStatic_grows g.stmtSites).trans ih

theorem ensures_resolveStmt_extends {stmt : StmtId} {log : Array Notice} :
    Ensures (g.resolveStmt scene stmt caller) log fun r _ => g.Extends r.2 :=
  ensures_resolveStmt_of (.refl g) fun _ _ _ _ _ _ =>
    extends_addSites.trans (extends_sites (Std.Refl.refl _) _)

end CallGraph

/-- What a summary takes for an allocation is one. -/
structure Summary.Ordered (scene : Scene) (x : Summary) : Prop where
  edges : ∀ e ∈ x.edges, e.kind = .address → (Location.value e.source).IsObject scene
  fieldAllocations : ∀ a ∈ x.fieldAllocations, (Location.value a.object).IsObject scene

/-- What surveying keeps, also where it fails. -/
def Survey.growth (scene : Scene) : Guard Fault Survey where
  Holds v := v.summary.Ordered scene
  Later v v' := v.calls.Extends v'.calls
  Fails _ _ := True
  refl v := .refl v.calls
  trans := .trans

end PointsTo
