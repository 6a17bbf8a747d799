import Chip8.Event

/-!
# The log of the program

The program keeps one log of its own records and those of the run. A line of it (`Notice.line`)
has the level, filled up to five characters, the part of the program
that speaks, and what it says.
-/

namespace Chip8.CommandLine

/-- Why a file could not be read. -/
inductive ReadError where
  | notFound
  | permissionDenied
  | notADirectory
  | isADirectory
  | nameTooLong
  /-- Any other failure, with the system's number and description. -/
  | other (code : Nat) (description : String)
  deriving DecidableEq

/-- The system's number for a failure. -/
def ReadError.code : ReadError → Nat
  | notFound => 2
  | permissionDenied => 13
  | notADirectory => 20
  | isADirectory => 21
  | nameTooLong => 36
  | other code _ => code

/-- The system's description of a failure. -/
def ReadError.description : ReadError → String
  | notFound => "No such file or directory"
  | permissionDenied => "Permission denied"
  | notADirectory => "Not a directory"
  | isADirectory => "Is a directory"
  | nameTooLong => "File name too long"
  | other _ description => description

/-- A record of the program. -/
inductive Notice where
  /-- A file of `size` bytes was read. -/
  | fileRead (path : String) (size : Nat)
  | unreadable (path : String) (error : ReadError)
  /-- The file is no image that a machine could hold. -/
  | refused (fault : Fault)
  /-- A record of the machine or of its run. -/
  | event (event : Event)
  deriving DecidableEq

namespace Notice

/-- The level of a record. -/
def level : Notice → Level
  | fileRead .. => .info
  | unreadable .. | refused .. => .error
  | event e => e.level

/-- The part of the program that a record comes from. -/
def source : Notice → String
  | fileRead .. | unreadable .. | refused .. => "minichip"
  | event e => e.source

/-- What a record says. -/
def text : Notice → String
  | fileRead path size => "loaded " ++ path ++ " (" ++ toString size ++ " bytes)"
  | unreadable path error =>
    "failed to read " ++ path ++ ": " ++ error.description ++ " (os error " ++
      toString error.code ++ ")"
  | refused fault => fault.message
  | event e => e.text

/-- A line of the log. -/
def line (n : Notice) : String :=
  String.ofList (n.level.name.toList.rightpad 5 ' ') ++ " [" ++ n.source ++ "] " ++ n.text

end Notice

end Chip8.CommandLine
