import PointsTo.Command.Refusal
import PointsTo.Command.Run

/-! The command line of the analysis. -/
namespace PointsTo.Main

def errorCode : IO.Error → UInt32
  | .noFileOrDirectory _ code _ | .permissionDenied _ code _ | .inappropriateType _ code _
  | .invalidArgument _ code _ | .resourceExhausted _ code _ => code
  | .otherError code _ => code
  | _ => 0

/-- The words for a failure, whose number comes with either sign. -/
def errorText (e : IO.Error) : String :=
  let code := errorCode e
  match Command.Refusal.all.find? fun r => r.code == code.toNat || r.code == (0 - code).toNat with
  | some refusal => refusal.message
  | none => toString e

/-- The text of a file, or why there is none. -/
def readText (file : String) : IO (Except String String) := do
  try
    match String.fromUTF8? (← IO.FS.readBinFile file) with
    | some text => return .ok text
    | none => return .error "stream did not contain valid UTF-8"
  catch e => return .error (errorText e)

def writeText (file text : String) : IO (Except String Unit) := do
  try
    IO.FS.withFile file .write fun handle => do
      handle.putStr text
      handle.flush
    return .ok ()
  catch e => return .error (errorText e)

/-- The files and streams of the process. -/
def host : Command.Host IO where
  read := readText
  write := writeText
  print text := IO.print text
  complain text := IO.eprint text
  now := IO.monoNanosNow

end PointsTo.Main

open PointsTo in
def main (texts : List String) : IO UInt32 := do
  Command.run Main.host ((← IO.getEnv "PTA_FLAGS").getD "") texts
