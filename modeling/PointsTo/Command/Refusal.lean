/-! Refusals of the operating system, with its numbers and words for them. -/
namespace PointsTo.Command

/-- Why the operating system refuses to read or to write a file. -/
inductive Refusal where
  | notPermitted
  | missing
  | denied
  | notDirectory
  | isDirectory
  | noSpace
  | nameTooLong
deriving DecidableEq

namespace Refusal

def all : List Refusal :=
  [notPermitted, missing, denied, notDirectory, isDirectory, noSpace, nameTooLong]

/-- The number that the operating system gives it. -/
def code : Refusal → Nat
  | .notPermitted => 1
  | .missing => 2
  | .denied => 13
  | .notDirectory => 20
  | .isDirectory => 21
  | .noSpace => 28
  | .nameTooLong => 36

def reason : Refusal → String
  | .notPermitted => "Operation not permitted"
  | .missing => "No such file or directory"
  | .denied => "Permission denied"
  | .notDirectory => "Not a directory"
  | .isDirectory => "Is a directory"
  | .noSpace => "No space left on device"
  | .nameTooLong => "File name too long"

def message (r : Refusal) : String := r.reason ++ " (os error " ++ toString r.code ++ ")"

end Refusal

end PointsTo.Command
