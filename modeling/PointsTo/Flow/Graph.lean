import PointsTo.Context.Basic
import PointsTo.Flow.EdgeKind
import PointsTo.Flow.Node
import Std.Data.TreeMap

/-! The graph along which objects flow between the variables of a program. -/
namespace PointsTo

structure FlowEdge where
  source : NodeId
  target : NodeId
  kind : EdgeKind
  stmt : Option StmtId
deriving DecidableEq

structure FlowGraph where
  nodes : Array Node := #[]
  edges : Array FlowEdge := #[]
  /-- The node of each location under each context. -/
  interned : Std.TreeMap (ContextId × Location) NodeId := ∅
  /-- The contexts that each value has a node in. -/
  instances : Std.TreeMap ValueId (Std.TreeMap ContextId NodeId) := ∅
  /-- The value that stands for all references to a place. -/
  representatives : List (Place × ValueId) := []
  outgoing : Std.TreeMap (NodeId × EdgeKind) (List EdgeId) := ∅
  incoming : Std.TreeMap (NodeId × EdgeKind) (List EdgeId) := ∅
  /-- The address edges in the order in which they were added. -/
  addressEdges : Array EdgeId := #[]

/-- Steps that add to a flow graph. -/
abbrev Growing := EStateM Fault FlowGraph

namespace FlowGraph

def node (g : FlowGraph) (n : NodeId) : Except Fault Node := n.fetch g.nodes

def edge? (g : FlowGraph) (e : EdgeId) : Option FlowEdge := g.edges[e.index]?

/-- The targets of the edges of one kind that leave a node. -/
def successors (g : FlowGraph) (n : NodeId) (kind : EdgeKind) : List NodeId :=
  ((g.outgoing[(n, kind)]?).getD []).filterMap fun e => (g.edge? e).map (·.target)

/-- The sources of the edges of one kind that enter a node. -/
def predecessors (g : FlowGraph) (n : NodeId) (kind : EdgeKind) : List NodeId :=
  ((g.incoming[(n, kind)]?).getD []).filterMap fun e => (g.edge? e).map (·.source)

/-- The nodes that a node flows into unchanged. -/
def copySuccessors (g : FlowGraph) (n : NodeId) : List NodeId :=
  (EdgeKind.all.filter EdgeKind.isCopyLike).flatMap (g.successors n)

def hasEdge (g : FlowGraph) (source target : NodeId) (kind : EdgeKind) : Bool :=
  (g.successors source kind).contains target

def countOf (g : FlowGraph) (kind : EdgeKind) : Nat :=
  (g.edges.toList.filter (·.kind == kind)).length

/-- The context and the value under which a value is known. -/
def known (g : FlowGraph) (s : Scene) (c : ContextId) (v : ValueId) :
    Except Fault (ContextId × ValueId) := do
  match ← s.place? v with
  | none => return (c, v)
  | some p =>
    return (if p.isShared then .empty else c, (g.representatives.lookup p).getD v)

/-- The node of a value under a context, if there is one. -/
def nodeOf? (g : FlowGraph) (s : Scene) (c : ContextId) (v : ValueId) :
    Except Fault (Option NodeId) := do
  if (← s.value v).isGlobalObject then return g.interned[(ContextId.empty, Location.globalObject)]?
  let (c, v) ← g.known s c v
  return g.interned[(c, Location.value v)]?

/-- All nodes of a value, by context. -/
def nodesOf (g : FlowGraph) (s : Scene) (v : ValueId) :
    Except Fault (List (ContextId × NodeId)) := do
  let (_, v) ← g.known s .empty v
  return ((g.instances[v]?).getD ∅).toList

end FlowGraph

namespace Growing

instance : MonadLift (Except Fault) Growing := ⟨fun x g =>
  match x with
  | .ok a => .ok a g
  | .error f => .error f g⟩

def node (n : NodeId) : Growing Node := fun g =>
  match g.node n with
  | .ok a => .ok a g
  | .error f => .error f g

/-- Changes a node. -/
def update (n : NodeId) (f : Node → Node) : Growing Unit :=
  modify fun g => { g with nodes := g.nodes.modify n.index f }

/-- The node of a location, added if it is new. -/
def intern (c : ContextId) (l : Location) (stmt : Option StmtId) (kind : NodeKind) :
    Growing NodeId := modifyGet fun g =>
  match g.interned[(c, l)]? with
  | some n => (n, g)
  | none =>
    let n : NodeId := ⟨g.nodes.size⟩
    (n, { g with
      nodes := g.nodes.push { context := c, location := l, stmt, kind }
      interned := g.interned.insert (c, l) n })

def globalObject : Growing NodeId :=
  intern .empty .globalObject none (.globalObject {})

/-- The context and the value under which a value is known from now on. -/
def settle (s : Scene) (c : ContextId) (v : ValueId) : Growing (ContextId × ValueId) := do
  match ← s.place? v with
  | none => return (c, v)
  | some p =>
    let v' ← modifyGet fun g =>
      match g.representatives.lookup p with
      | some v' => (v', g)
      | none => (v, { g with representatives := (p, v) :: g.representatives })
    return (if p.isShared then .empty else c, v')

def allocation (owner : String) : NodeKind :=
  match Container.ofClass? owner with
  | some kind => .container kind none
  | none => .allocation (some owner)

/-- Makes the node of a value that has none under this context. -/
def introduce (c : ContextId) (v : ValueId) (stmt : Option StmtId) (kind : NodeKind) :
    Growing NodeId := do
  let n ← intern c (.value v) stmt kind
  if let .fieldRef base _ := kind then
    update base fun b => { b with fieldRefs := b.fieldRefs.push n }
  modify fun g =>
    { g with instances := g.instances.insert v (((g.instances[v]?).getD ∅).insert c n) }
  return n

/-- The node of a value; the fuel bounds the depth of its bases. -/
def valueWithin (s : Scene) : (fuel : Nat) → ContextId → ValueId → Option StmtId →
    Growing NodeId
  | 0, _, v, _ => throw (.cyclicValue v)
  | fuel + 1, c, v, stmt => do
    if (← s.value v).isGlobalObject then globalObject
    else
      let (c, v) ← settle s c v
      match (← get).interned[(c, Location.value v)]? with
      | some n => return n
      | none =>
        if (← s.globalProperty? v).isSome then introduce c v stmt (.staticField {})
        else
          match ← s.value v with
          | .var name _ =>
            introduce c v stmt (if name = Name.receiver then .receiver {} else .var {})
          | .field base target =>
            let b ← valueWithin s fuel c base stmt
            introduce c v stmt (.fieldRef b (.named target.name))
          | .element base _ =>
            let b ← valueWithin s fuel c base stmt
            introduce c v stmt (.fieldRef b .element)
          | .staticField _ => introduce c v stmt (.staticField {})
          | .new owner => introduce c v stmt (allocation owner)
          | .newArray _ => introduce c v stmt (.container .array none)
          | .functionRef m => introduce c v stmt (.function { method := m })
          | _ => introduce c v stmt .other

/-- The node of a value under a context, added if it is new. Bases of values that are not cyclic
nest no deeper than the value table is long. -/
def value (s : Scene) (c : ContextId) (v : ValueId) (stmt : Option StmtId) : Growing NodeId :=
  valueWithin s (s.values.size + 1) c v stmt

/-- The node of a field of an object. -/
def objectField (object : NodeId) (key : FieldKey) : Growing NodeId := do
  let o ← node object
  match o.fields.lookup key with
  | some n => return n
  | none =>
    let n ← intern o.context (.field object key) none .objectField
    update object fun o => { o with fields := (key, n) :: o.fields }
    return n

/-- The field that a field reference denotes in an object; `none` if it is no field reference. -/
def fieldOf (fieldRef object : NodeId) : Growing (Option NodeId) := do
  match (← node fieldRef).fieldRef? with
  | some (_, key) => return some (← objectField object key)
  | none => return none

/-- The element slot of an object, which a container remembers. -/
def element (object : NodeId) : Growing NodeId := do
  let n ← objectField object .element
  update object fun o =>
    match o.kind with
    | .container kind none => { o with kind := .container kind (some n) }
    | _ => o
  return n

/-- A field reference that is not an expression of the program. -/
def fieldRef (base : NodeId) (key : FieldKey) : Growing NodeId := do
  let c := (← node base).context
  match (← get).interned[(c, Location.fieldRef base key)]? with
  | some n => return n
  | none =>
    let n ← intern c (.fieldRef base key) none (.fieldRef base key)
    update base fun b => { b with fieldRefs := b.fieldRefs.push n }
    return n

/-- The function that a bind call makes of the function `origin`. -/
def boundFunction (origin : NodeId) (method : MethodId) (binding : Binding)
    (receiver : Option NodeId) : Growing NodeId :=
  intern binding.context (.bound origin binding.site) none
    (.function { method, binding := some binding, receiver })

def synthetic (c : ContextId) (object : Synthetic) (owner : Option String) : Growing NodeId :=
  intern c (.synthetic object) none
    (match owner with
    | some owner => allocation owner
    | none => .allocation none)

def temporary (c : ContextId) (stmt : StmtId) : Growing NodeId :=
  intern c (.temporary stmt) (some stmt) (.var {})

/-- A global slot, which all contexts share. -/
def slot (space key : String) : Growing NodeId :=
  intern .empty (.slot space key) none .slot

/-- Adds an edge; gives its position if it is new. -/
def addEdge (source target : NodeId) (kind : EdgeKind) (stmt : Option StmtId) :
    Growing (Option EdgeId) := do
  if (← get).hasEdge source target kind then return none
  let _ ← node source
  let _ ← node target
  modifyGet fun g =>
    let e : EdgeId := ⟨g.edges.size⟩
    (some e, { g with
      edges := g.edges.push ⟨source, target, kind, stmt⟩
      outgoing := g.outgoing.insert (source, kind) ((g.outgoing[(source, kind)]?).getD [] ++ [e])
      incoming := g.incoming.insert (target, kind) ((g.incoming[(target, kind)]?).getD [] ++ [e])
      addressEdges := if kind = .address then g.addressEdges.push e else g.addressEdges })

end Growing

end PointsTo
