import Chip8.CallStack
import Chip8.CommandLine.Usage
import Chip8.Event

/-!
# Reading the command line

`Options.ofArguments` reads the arguments from the left into the options of a run, or into
what the program answers instead (`Reply`).

An option takes the argument after it as its value unless that begins with a hyphen, or the
text behind its `=`. Options and the image are checked when the next argument begins
(`Scan.settle`), so an argument that is not known at all is reported before a bad value in
front of it. Behind `--` every argument is the image. Help and version are answered as soon as
they are met.
-/

namespace Chip8.CommandLine

/-- What a run is asked for. -/
structure Options where
  /-- The file that holds the image. -/
  rom : String
  /-- Instructions per second. -/
  rate : Option UInt32
  /-- Stop after this many instructions. -/
  budget : Option UInt64
  /-- The number of calls that may be open. -/
  stackLimit : Nat
  /-- Print the picture at the end. -/
  dumpDisplay : Bool
  /-- The last level that the log shows. -/
  threshold : Level
  deriving DecidableEq

/-- What the program answers if it does not run an image. -/
inductive Reply where
  | help
  | version
  | refuse (error : UsageError)
  deriving DecidableEq

/-- An argument as it is written. -/
inductive Word where
  /-- The two hyphens that end the options. -/
  | separator
  /-- An option by its name, perhaps with a value. -/
  | long (name : String) (value : Option String)
  /-- One or more flags by their letters. -/
  | letters (flags : List Char)
  /-- Anything else. -/
  | plain
  deriving DecidableEq

/-- Tells the forms of an argument apart. A single hyphen is no option. -/
def Word.ofChars : List Char → Word
  | ['-', '-'] => separator
  | '-' :: '-' :: rest =>
    match rest.dropWhile (· ≠ '=') with
    | [] => long (String.ofList rest) none
    | _ :: value => long (String.ofList (rest.takeWhile (· ≠ '='))) (some (String.ofList value))
  | '-' :: flag :: more => letters (flag :: more)
  | _ => plain

/-- The arguments read so far. -/
structure Scan where
  /-- The accepted arguments, in the order in which they count. -/
  given : List Argument
  rom : Option String
  rate : Option UInt32
  budget : Option UInt64
  stackLimit : Option Nat
  /-- How often more logging was asked for. -/
  verbosity : Nat
  /-- An argument that was begun but not checked, with its value if there is one. -/
  pending : Option (Argument × Option String)
  /-- The next argument may be the value of the pending option. -/
  waiting : Bool
  /-- The options have ended. -/
  separated : Bool

namespace Scan

/-- Nothing is read. -/
def start : Scan := ⟨[], none, none, none, none, 0, none, false, false⟩

/-- Notes that an argument was accepted. -/
def accept (s : Scan) (argument : Argument) : Scan :=
  { s with given := s.given ++ [argument] }

/-- A number that could be read, or the report of one that could not. -/
def number {α : Type} (argument : Argument) (text : String) (read : Except IntegerError α) :
    Except Reply α :=
  read.mapError fun reason => .refuse (.invalidValue text argument reason)

/-- Checks an argument that has a value and accepts it. -/
def store (s : Scan) (argument : Argument) (text : String) : Except Reply Scan :=
  if argument ∈ s.given then .error (.refuse (.repeated argument))
  else
    let s := s.accept argument
    match argument with
    | .hz => do return { s with rate := some (← number argument text (Integer.readRate text)) }
    | .maxCycles => do
      let budget ← number argument text (Integer.readUnsigned text)
      return { s with budget := some (.ofNat budget) }
    | .stackLimit => do
      return { s with stackLimit := some (← number argument text (Integer.readUnsigned text)) }
    | .rom =>
      if text.isEmpty then .error (.refuse (.valueMissing argument))
      else .ok { s with rom := some text }
    | .dumpDisplay | .verbose | .quiet | .help | .version => .ok s

/-- Checks an argument that takes a value. -/
def supply (s : Scan) (argument : Argument) : Option String → Except Reply Scan
  | none => .error (.refuse (.valueMissing argument))
  | some text => s.store argument text

/-- Checks the pending argument. -/
def settle (s : Scan) : Except Reply Scan :=
  match s.pending with
  | none => .ok { s with waiting := false }
  | some (argument, value) =>
    { s with pending := none, waiting := false }.supply argument value

/-- Begins an argument that takes a value. -/
def await (s : Scan) (argument : Argument) (value : Option String) : Scan :=
  { s with pending := some (argument, value), waiting := value.isNone }

/-- Reads a flag. Asking for more logging again counts from the last time. -/
def flag (s : Scan) (argument : Argument) : Except Reply Scan := do
  let s ← s.settle
  match argument with
  | .help => .error .help
  | .version => .error .version
  | .verbose =>
    return { s with given := s.given.erase .verbose, verbosity := s.verbosity + 1 }.accept .verbose
  | _ =>
    if argument ∈ s.given then .error (.refuse (.repeated argument))
    else return s.accept argument

/-- Reads an option by its name. -/
def long (s : Scan) (name : String) (value : Option String) : Except Reply Scan :=
  match Argument.ofLongName? name with
  | none => .error (.refuse (.unexpectedArgument ("--" ++ name)))
  | some argument =>
    if argument.takesValue then do
      let s ← s.settle
      match value with
      | none => return s.await argument none
      | some text => s.store argument text
    else
      match value with
      | none => s.flag argument
      | some text => .error (.refuse (.unexpectedValue text argument))

/-- Reads flags by their letters. -/
def letters : Scan → List Char → Except Reply Scan
  | s, [] => .ok s
  | s, c :: rest =>
    match Argument.ofLetter? c with
    | none => .error (.refuse (.unexpectedArgument ("-" ++ String.singleton c)))
    | some argument => do letters (← s.flag argument) rest

/-- Reads the name of the image. There is one only. -/
def positional (s : Scan) (text : String) : Except Reply Scan :=
  if .rom ∈ s.given ∨ s.pending.any (·.1 = .rom) then
    .error (.refuse (.unexpectedArgument text))
  else do return (← s.settle).await .rom (some text)

/-- Reads an argument that is not an option : the value of the option before it, or else the
name of the image. -/
def plain (s : Scan) (text : String) : Except Reply Scan :=
  match s.waiting, s.pending with
  | true, some (argument, _) => .ok (s.await argument (some text))
  | _, _ => s.positional text

/-- Reads one argument. -/
def argument (s : Scan) (text : String) : Except Reply Scan :=
  if s.separated then s.positional text
  else
    match Word.ofChars text.toList with
    | .separator => .ok { s with separated := true }
    | .long name value => s.long name value
    | .letters flags => s.letters flags
    | .plain => s.plain text

/-- The last level that the log shows. -/
def threshold (s : Scan) : Level :=
  if .quiet ∈ s.given then .warning
  else
    match s.verbosity with
    | 0 => .info
    | 1 => .debug
    | _ => .trace

/-- The options of a command line that has been read to its end. -/
def options (s : Scan) : Except Reply Options :=
  match s.given.filter fun argument => argument = .quiet ∨ argument = .verbose with
  | first :: second :: _ => .error (.refuse (.conflict first second))
  | _ =>
    match s.rom with
    | some rom =>
      .ok
        { rom
          rate := s.rate
          budget := s.budget
          stackLimit := s.stackLimit.getD CallStack.defaultLimit
          dumpDisplay := .dumpDisplay ∈ s.given
          threshold := s.threshold }
    | none => .error (.refuse (if s.given = [] then .noArguments else .romMissing))

end Scan

/-- The options that arguments ask for, or what to answer instead. -/
def Options.ofArguments (arguments : List String) : Except Reply Options := do
  let read ← arguments.foldlM Scan.argument Scan.start
  (← read.settle).options

end Chip8.CommandLine
