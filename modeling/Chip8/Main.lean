import Chip8.CommandLine.Program

/-!
# The command

Reads the arguments and the file, runs the image, and prints. Log lines are printed as they
arise, and between two rounds of a paced run the command sleeps for the period.
-/

namespace Chip8

open CommandLine

/-- The contents of a file. -/
def readImage (path : String) : IO (Except ReadError (List UInt8)) := do
  try
    let bytes ← IO.FS.readBinFile path
    return .ok bytes.toList
  catch error =>
    return .error <|
      match error with
      | .noFileOrDirectory .. => .notFound
      | .permissionDenied .. => .permissionDenied
      | .inappropriateType _ code _ => if code = 21 then .isADirectory else .notADirectory
      | error => .other 5 (toString error)

/-- Prints the lines of records that the log shows. -/
def printNotices (options : Options) (notices : List Notice) : IO Unit :=
  (logLines options.threshold notices).forM IO.println

/-- Goes through a session round by round, printing its records, until it is over. -/
partial def drive (options : Options) (session : Session Unit) : IO (Report Unit) := do
  printNotices options (session.log.toList.map .event)
  match { session with log := #[] }.cycle .absent with
  | .over report =>
    printNotices options (report.session.log.toList.map .event)
    return report
  | .on next =>
    if let some rate := options.rate then
      IO.sleep (.ofNat ((Period.ofRate rate).nanoseconds / 1000000))
    drive options next

end Chip8

open Chip8 CommandLine in
/-- The program. -/
def main (arguments : List String) : IO UInt32 := do
  match Options.ofArguments arguments with
  | .error reply =>
    IO.print reply.completion.output
    IO.eprint reply.completion.complaint
    return reply.completion.status.toUInt32
  | .ok options =>
    match begin options (← readImage options.rom) with
    | .failed notices =>
      printNotices options notices
      return 1
    | .ready notices session =>
      printNotices options notices
      let report ← drive options session
      IO.print (picture options report.session.machine)
      return (exitStatus report.result).toUInt32
