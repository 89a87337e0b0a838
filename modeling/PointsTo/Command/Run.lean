import PointsTo.Analysis.Rounds
import PointsTo.Command.Arguments
import PointsTo.Command.Duration
import PointsTo.Command.Help
import PointsTo.Report.Dot
import PointsTo.Report.Dump
import PointsTo.Report.Statistics
import PointsTo.Scene.Decode
import PointsTo.Text.Lines

/-! What the command does with a scene: it reports, or it says what went wrong. -/
namespace PointsTo.Command

/-- Something that the command does to the outside. -/
inductive Effect where
  | print (text : String)
  | write (file text : String)
deriving DecidableEq

/-- A failure, what it happened in, and why. -/
structure Complaint where
  context : String
  cause : Option String
deriving DecidableEq

namespace Complaint

/-- The text for the user. Further lines of the cause are indented like the first one. -/
def text (c : Complaint) : String :=
  match c.cause with
  | none => "Error: " ++ c.context ++ "\n"
  | some cause =>
    let indented := "\n    ".intercalate (cause.splitOn "\n")
    "Error: " ++ c.context ++ "\n\nCaused by:\n    " ++ indented ++ "\n"

def noInput : Complaint := ⟨"no scene file given", none⟩

def unreadable (file cause : String) : Complaint := ⟨"failed to read " ++ file, some cause⟩

/-- Where a text ends, in lines and bytes. -/
def endPosition (text : String) : String :=
  let lines := text.splitOn "\n"
  "line " ++ toString lines.length ++ " column " ++
    toString ((lines.getLast?.map String.utf8ByteSize).getD 0)

/-- What is wrong with a text is said only if there is nothing in it. -/
def malformed (file text : String) : Complaint :=
  let detail :=
    if text.toList.all Json.Reader.isBlank then ": EOF while parsing a value at " ++ endPosition text else ""
  ⟨"failed to load " ++ file, some ("failed to load scene" ++ detail)⟩

def analysis (e : AnalysisError) : Complaint := ⟨"pointer analysis failed", some e.message⟩

def unwritable (cause : String) : Complaint := ⟨"failed to dump results", some cause⟩

end Complaint

/-- How the command ends. -/
inductive Ending where
  | done
  | complaint (c : Complaint)
  /-- The tables of the scene or of the analysis are broken. -/
  | broken
deriving DecidableEq

/-- The exit code. -/
def Ending.code : Ending → UInt32
  | .done => 0
  | .complaint _ => 1
  | .broken => 101

/-- What the command does, in order, and how it ends. -/
structure Outcome where
  effects : List Effect := []
  ending : Ending := .done

/-- The second one follows if the first one is done. -/
def Outcome.andThen (o next : Outcome) : Outcome :=
  if o.ending = .done then ⟨o.effects ++ next.effects, next.ending⟩ else o

/-- The exit code for arguments that do not lead to a run. -/
def Stop.code : Stop → UInt32
  | .invalid => 2
  | .help _ | .version => 0

/-- What is printed for arguments that do not lead to a run. -/
def Stop.text : Stop → String
  | .invalid => ""
  | .help detailed => helpText detailed
  | .version => versionText

/-- The analysis of the text of a scene file, or how the command ends without one. Nothing is
explained on the way. -/
def analyze (a : Arguments) (file text : String) (fuel : Nat) :
    Except Ending (Scene × State) :=
  match Scene.parse? text with
  | none => .error (.complaint (.malformed file text))
  | some scene =>
    match Problem.analyze ⟨scene, { a.settings with explains := false }⟩ fuel with
    | .ok () s => .ok (scene, s)
    | .error (.error e) _ => .error (.complaint (.analysis e))
    | .error _ _ => .error .broken

/-- The name that stands for the standard output. -/
def standardOutput : String := "stdout"

/-- An effect, or the end if it cannot be made. -/
def Outcome.ofExcept : Except Fault Effect → Outcome
  | .ok effect => { effects := [effect] }
  | .error _ => { ending := .broken }

def statisticsReport (scene : Scene) (s : State) (time : String) : Outcome :=
  .ofExcept ((Statistics.ofState scene s).map fun t => .print (Text.unlines (t.lines time)))

/-- The lines up to the first that cannot be made are written all the same. -/
def pointsReport (scene : Scene) (s : State) (file : String) : Outcome :=
  match Dump.ofState scene s with
  | .error _ => { ending := .broken }
  | .ok dump =>
    let (lines, fault) := dump.lines scene
    let text := Text.unlines lines
    { effects := [if file = standardOutput then .print text else .write file text]
      ending := if fault.isSome then .broken else .done }

def callGraphReport (scene : Scene) (s : State) (file : String) : Outcome :=
  .ofExcept ((s.calls.dot scene).map fun text => .write file text)

/-- The reports that were asked for: statistics, points-to sets, call graph. -/
def conclude (a : Arguments) (scene : Scene) (s : State) (time : String) : Outcome :=
  let statistics := if a.showsStatistics then statisticsReport scene s time else {}
  let points := a.pointsFile.elim {} (pointsReport scene s)
  let calls := a.callGraphFile.elim {} (callGraphReport scene s)
  (statistics.andThen points).andThen calls

/-- What the command needs from its surroundings. A failure comes with its cause. Paths hold no zero
character. -/
structure Host (m : Type → Type) where
  read : String → m (Except String String)
  write : String → String → m (Except String Unit)
  print : String → m Unit
  complain : String → m Unit
  /-- Nanoseconds since some moment. -/
  now : m Nat

namespace Host

variable {m : Type → Type} [Monad m]

/-- Why a path with a zero character names no file. -/
def zeroInPath : String := "file name contained an unexpected NUL byte"

def readFile (host : Host m) (path : String) : m (Except String String) :=
  if path.toList.contains '\x00' then return .error zeroInPath else host.read path

def writeFile (host : Host m) (path text : String) : m (Except String Unit) :=
  if path.toList.contains '\x00' then return .error zeroInPath else host.write path text

/-- Carries out effects up to the first that fails. -/
def perform (host : Host m) : List Effect → m (Except String Unit)
  | [] => return .ok ()
  | .print text :: rest => do
    host.print text
    host.perform rest
  | .write file text :: rest => do
    match ← host.writeFile file text with
    | .ok () => host.perform rest
    | .error cause => return .error cause

/-- Carries out what the command does; gives the exit code. -/
def finish (host : Host m) (o : Outcome) : m UInt32 := do
  let ending :=
    match ← host.perform o.effects with
    | .ok () => o.ending
    | .error cause => .complaint (.unwritable cause)
  if let .complaint c := ending then host.complain c.text
  return ending.code

end Host

/-- More steps than any run takes that ends. -/
def fuel : Nat := 1000000000000000000

/-- A run with the given arguments. -/
def work {m : Type → Type} [Monad m] (host : Host m) (a : Arguments) : m UInt32 := do
  match a.inputs.getLast? with
  | none => host.finish { ending := .complaint .noInput }
  | some file =>
    match ← host.readFile file with
    | .error cause => host.finish { ending := .complaint (.unreadable file cause) }
    | .ok text =>
      let start ← host.now
      match analyze a file text fuel with
      | .error ending => host.finish { ending }
      | .ok (scene, s) =>
        let time := duration ((← host.now) - start)
        host.finish (conclude a scene s time)

/-- The command with the arguments of an environment variable and of the command line; gives the
exit code. -/
def run {m : Type → Type} [Monad m] (host : Host m) (environment : String) (texts : List String) :
    m UInt32 := do
  match Arguments.parse environment texts with
  | .ok a => work host a
  | .error stop =>
    host.print stop.text
    return stop.code

end PointsTo.Command
