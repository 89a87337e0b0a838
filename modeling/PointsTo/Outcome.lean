import PointsTo.Ref
import PointsTo.Scene.Type

/-! What can go wrong: broken tables, notices to the user, and errors that end an analysis. -/
namespace PointsTo

/-- The input tables do not fit together, so that no answer exists. -/
inductive Fault where
  /-- A position that its table does not have. -/
  | dangling (table : Table) (index : Nat)
  /-- A value that is built from itself. -/
  | cyclicValue (v : ValueId)
  /-- A parameter position beyond every possible parameter list. -/
  | parameterRange (index : Nat)
  /-- A receiver or parameter asked of a method that has none. -/
  | undeclared (m : MethodId)
deriving DecidableEq

/-- The entry of `xs` at the position `r`. -/
def Ref.fetch {t : Table} {α : Type} (r : Ref t) (xs : Array α) : Except Fault α :=
  match xs[r.index]? with
  | some x => .ok x
  | none => .error (.dangling t r.index)

/-- Something the user should know about, which does not stop the work. -/
inductive Notice where
  | duplicateClass (name : String)
  | cyclicHierarchy (name : String)
  | missingImportSource (source name : String)
  | missingExport (file name : String)
  | unresolvedStaticCall (target caller : Signature)
  | unresolvedLocal (name : String) (user : Signature)
  | unknownContext (context : ContextId)
  | notFieldReference (node : NodeId)
  | passiveReceiver (node : NodeId) (site : SiteId)
  | missingReceiver (site : SiteId)
  | notCallable (node : NodeId)
  | callbackNotPointer (site : SiteId)
  | keyNotConstant (site : SiteId)
  | taskNotPointer (site : SiteId)
  | workerWithoutReceiver (site : SiteId)
  | scriptNotConstant (site : SiteId)
  | scriptNotFound (name : String)
  | handlerWithoutStatement (site : SiteId)
  | handlerNotPointer (site : SiteId)
deriving DecidableEq

def Notice.message : Notice → String
  | .duplicateClass name => s!"Duplicate class name {name}"
  | .cyclicHierarchy name => s!"Cyclic class hierarchy at {name}"
  | .missingImportSource source name => s!"Import source {source} of {name} not found"
  | .missingExport file name => s!"{file} does not export {name}"
  | .unresolvedStaticCall target caller =>
    s!"Unresolved static call to {target.text} in {caller.text}"
  | .unresolvedLocal name user =>
    s!"Cannot resolve external local {name} used in {user.text}"
  | .unknownContext context =>
    s!"Unknown caller context {context.label}, falling back to the dummy context"
  | .notFieldReference node => s!"{node.label} is not a field reference"
  | .passiveReceiver node site => s!"Receiver {node.label} of {site.label} cannot hold calls"
  | .missingReceiver site => s!"Dynamic call site {site.label} has no receiver"
  | .notCallable node => s!"Cannot call through {node.label}"
  | .callbackNotPointer site => s!"Callback of {site.label} is not a pointer"
  | .keyNotConstant site => s!"Storage access {site.label} has no constant key"
  | .taskNotPointer site => s!"Task function of {site.label} is not a pointer"
  | .workerWithoutReceiver site => s!"Worker call {site.label} has no receiver"
  | .scriptNotConstant site => s!"Worker script of {site.label} is not a constant"
  | .scriptNotFound name => s!"Worker script {name} not found"
  | .handlerWithoutStatement site =>
    s!"Message handler registration {site.label} has no statement"
  | .handlerNotPointer site => s!"Message handler of {site.label} is not a pointer"

/-- Why an analysis gives up. -/
inductive AnalysisError where
  | missingReceiverBinding (method : MethodId)
  | unexpectedReturn (method : MethodId) (value : ValueId)
  | constructorWithoutReceiver (callee : MethodId) (stmt : Option StmtId)
  | receiverNotPointer (receiver : ValueId) (stmt : Option StmtId)
  | unknownEntry (name : String)
deriving DecidableEq

def AnalysisError.message : AnalysisError → String
  | .missingReceiverBinding method =>
    s!"no `this` assignment found in instance method {method.label}"
  | .unexpectedReturn method value =>
    s!"unexpected return operand {value.label} in {method.label}"
  | .constructorWithoutReceiver callee stmt =>
    let place := Ref.optionLabel stmt
    s!"call to constructor {callee.label} at {place} is not an instance invoke"
  | .receiverNotPointer receiver stmt =>
    let place := Ref.optionLabel stmt
    s!"no PAG node for receiver {receiver.label} of {place}"
  | .unknownEntry name => s!"unknown entry method `{name}`"

/-- How a run can end without a result. -/
inductive Failure where
  | fault (f : Fault)
  | error (e : AnalysisError)
  | outOfFuel
deriving DecidableEq

/-- Questions to a scene: they may hit a fault and they leave notices. -/
abbrev Scan := EStateM Fault (Array Notice)

namespace Scan

/-- Asks a question that leaves no notice. -/
def ask {α : Type} (x : Except Fault α) : Scan α := fun log =>
  match x with
  | .ok a => .ok a log
  | .error f => .error f log

instance : MonadLift (Except Fault) Scan := ⟨ask⟩

def note (n : Notice) : Scan Unit := modify (·.push n)

end Scan

end PointsTo
