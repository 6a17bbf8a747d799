import Chip8.CommandLine.Integer
import Chip8.CommandLine.Terminal

/-!
# The arguments of the program

Which arguments there are (`Argument`), the help that lists them, and how the command line can
be wrong (`UsageError`), each with the first line of its report. What this quotes of the command
line is shown without terminal control.
-/

namespace Chip8.CommandLine

/-- An argument of the program. -/
inductive Argument where
  | rom
  | hz
  | maxCycles
  | stackLimit
  | dumpDisplay
  | verbose
  | quiet
  | help
  | version
  deriving DecidableEq

/-- An argument as the help shows it. -/
def Argument.usage : Argument → String
  | rom => "<ROM>"
  | hz => "--hz <HZ>"
  | maxCycles => "--max-cycles <MAX_CYCLES>"
  | stackLimit => "--stack-limit <STACK_LIMIT>"
  | dumpDisplay => "--dump-display"
  | verbose => "--verbose..."
  | quiet => "--quiet"
  | help => "--help"
  | version => "--version"

/-- The option with a given long name. -/
def Argument.ofLongName? : String → Option Argument
  | "hz" => some hz
  | "max-cycles" => some maxCycles
  | "stack-limit" => some stackLimit
  | "dump-display" => some dumpDisplay
  | "verbose" => some verbose
  | "quiet" => some quiet
  | "help" => some help
  | "version" => some version
  | _ => none

/-- The flag with a given letter. -/
def Argument.ofLetter? : Char → Option Argument
  | 'v' => some verbose
  | 'q' => some quiet
  | 'h' => some help
  | 'V' => some version
  | _ => none

/-- Whether an option stands before a value. -/
def Argument.takesValue : Argument → Bool
  | rom | hz | maxCycles | stackLimit => true
  | dumpDisplay | verbose | quiet | help | version => false

/-- What is wrong with a command line. -/
inductive UsageError where
  /-- There are no arguments at all. -/
  | noArguments
  /-- No argument of this name, or no room for another. -/
  | unexpectedArgument (text : String)
  /-- A flag with a value. -/
  | unexpectedValue (value : String) (argument : Argument)
  /-- An option, or the image, without a value. -/
  | valueMissing (argument : Argument)
  /-- An argument that may be given once only was given again. -/
  | repeated (argument : Argument)
  /-- A value that is not a number of the option's range. -/
  | invalidValue (value : String) (argument : Argument) (reason : IntegerError)
  /-- Two arguments that exclude each other, in the order in which they were given. -/
  | conflict (first second : Argument)
  /-- There is no image to run. -/
  | romMissing
  deriving DecidableEq

/-- A text in quotation marks. -/
def quoted (text : String) : String := "'" ++ text ++ "'"

/-- What is shown of a text from the command line, in quotation marks. -/
def quotedInput (text : String) : String := quoted (Terminal.visible text)

/-- How the program is called. -/
def usageLine : String := "Usage: minichip [OPTIONS] <ROM>"

/-- The first line of the report of a wrong command line. How the program is called and where its
help is would follow, and the whole help if there are no arguments. -/
def UsageError.message : UsageError → String
  | noArguments => usageLine
  | unexpectedArgument text => "error: unexpected argument " ++ quotedInput text ++ " found"
  | unexpectedValue value argument =>
    "error: unexpected value " ++ quotedInput value ++ " for " ++ quoted argument.usage ++
      " found; no more were expected"
  | valueMissing argument =>
    "error: a value is required for " ++ quoted argument.usage ++ " but none was supplied"
  | repeated argument =>
    "error: the argument " ++ quoted argument.usage ++ " cannot be used multiple times"
  | invalidValue value argument reason =>
    "error: invalid value " ++ quotedInput value ++ " for " ++ quoted argument.usage ++ ": " ++
      reason.message
  | conflict first second =>
    "error: the argument " ++ quoted first.usage ++ " cannot be used with " ++
      quoted second.usage
  | romMissing => "error: the following required arguments were not provided:"

/-- The help. -/
def helpText : String :=
  String.intercalate "\n"
    [usageLine,
      "",
      "Arguments:",
      "  <ROM>  Program image to run",
      "",
      "Options:",
      "      --hz <HZ>                    Instructions per second (unthrottled by default)",
      "      --max-cycles <MAX_CYCLES>    Stop after this many instructions",
      "      --stack-limit <STACK_LIMIT>  Maximum subroutine nesting [default: 16]",
      "      --dump-display               Print the frame buffer when the run ends",
      "  -v, --verbose...                 More logging, -vv traces every instruction",
      "  -q, --quiet                      Only log warnings and errors",
      "  -h, --help                       Print help",
      "  -V, --version                    Print version",
      ""]

/-- The name and the version of the program. -/
def versionText : String := "minichip 0.1.0\n"

end Chip8.CommandLine
