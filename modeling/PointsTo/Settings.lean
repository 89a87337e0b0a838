import PointsTo.Context.Policy
import PointsTo.Points.ObjectSet
import PointsTo.Scene.Decl

/-! What a run is asked to do. -/
namespace PointsTo

inductive Scale where
  /-- From the entries onwards. -/
  | wholeProgram
  /-- Each method on its own, with objects made up for its parameters. -/
  | methodLevel
deriving DecidableEq

structure Settings where
  /-- The names of the methods to start from; without any, the module code of all files. -/
  entries : List String := []
  policy : Policy := .callSite
  /-- The greatest length of a context. -/
  depth : Nat := 1
  collection : Collection := .dense
  /-- The order in which the nodes with objects to be added are listed; a run may not rely on it. -/
  updateOrder : Enumeration := .ascending
  scale : Scale := .wholeProgram
  /-- Whether what is left out is explained, for which its operands have to exist. -/
  explains : Bool := true

structure Problem where
  scene : Scene
  settings : Settings := {}

end PointsTo
