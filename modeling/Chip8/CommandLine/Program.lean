import Chip8.CommandLine.Notice
import Chip8.CommandLine.Options
import Chip8.Session

/-!
# The program

From a command line and the means to read a file to what the program shows and its exit status
(`run`). A run that is cancelled or uses up its budget is a success; a file that cannot be
read, an image that does not fit and a fault are failures. All of them are recorded in the log,
and the picture, if it is asked for, is printed after a run however it ends.

`begin` and `conclude` are the two ends of a run. What is between them is the loop of
`Session.finish`, which a caller may also go through round by round.
-/

namespace Chip8.CommandLine

/-- What the program leaves behind. -/
structure Completion where
  /-- The exit status. -/
  status : UInt8
  /-- The lines of the log, which come first on the standard output. -/
  log : List String
  /-- What the standard output shows after the log. -/
  shown : String
  /-- What the standard error output shows, up to its first line end. -/
  complaint : String
  deriving DecidableEq

/-- The answer to a command line that asks for no run. -/
def Reply.completion : Reply → Completion
  | help => ⟨0, [], helpText, ""⟩
  | version => ⟨0, [], versionText, ""⟩
  | refuse error => ⟨2, [], "", error.message ++ "\n"⟩

/-- The lines of the records that a log down to `threshold` shows. -/
def logLines (threshold : Level) (notices : List Notice) : List String :=
  (notices.filter (·.level.shownAt threshold)).map Notice.line

/-- A run that can begin, or one that cannot, with the records up to there. -/
inductive Beginning where
  | failed (notices : List Notice)
  | ready (notices : List Notice) (session : Session Unit)

/-- Loads the contents of the file into a fresh machine. -/
def begin (options : Options) (file : Except ReadError (List UInt8)) : Beginning :=
  match file with
  | .error error => .failed [.unreadable options.rom error]
  | .ok image =>
    let read := Notice.fileRead options.rom image.length
    match Machine.boot image options.stackLimit with
    | .error fault => .failed [read, .refused fault]
    | .ok machine =>
      let notices := read :: (Machine.bootEvents image).map .event
      .ready notices (Session.start (.ofLimits options.rate options.budget) machine ())

/-- The picture at the end, if it is asked for. -/
def picture (options : Options) (machine : Machine) : String :=
  if options.dumpDisplay then machine.picture.text else ""

/-- The exit status of a run. -/
def exitStatus (result : Except Fault Ending) : UInt8 :=
  match result with
  | .ok _ => 0
  | .error _ => 1

/-- What is left of a run that is over. -/
def conclude (options : Options) (notices : List Notice) (report : Report Unit) : Completion :=
  { status := exitStatus report.result
    log := logLines options.threshold (notices ++ report.session.log.toList.map .event)
    shown := picture options report.session.machine
    complaint := "" }

/-- A run from its options and the contents of the file to its end. -/
def execute (options : Options) (file : Except ReadError (List UInt8)) : Completion :=
  match begin options file with
  | .failed notices => ⟨1, logLines options.threshold notices, "", ""⟩
  | .ready notices session => conclude options notices (session.finish .absent)

/-- The program, where `read` gives the contents of a file. -/
def run (read : String → Except ReadError (List UInt8)) (arguments : List String) : Completion :=
  match Options.ofArguments arguments with
  | .error reply => reply.completion
  | .ok options => execute options (read options.rom)

/-- The standard output : the log, a line a record, and then what is shown. -/
def Completion.output (c : Completion) : String :=
  String.join (c.log.map (· ++ "\n")) ++ c.shown

end Chip8.CommandLine
