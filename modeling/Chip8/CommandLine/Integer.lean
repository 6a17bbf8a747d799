/-!
# Integers on the command line

`Integer.read` reads a decimal number of a given range from the text of an argument. A number
may have a plus sign and zeros in front, and a minus sign where the range has negative
numbers. The characters are read from the left, and the first that is no digit or takes the
number out of the range decides how the reading fails.
-/

namespace Chip8.CommandLine

/-- Why a text is no number of the range that is asked for. -/
inductive IntegerError where
  | empty
  | invalidDigit
  | tooLarge
  | tooSmall
  /-- The text is a number, but not one of those from `low` to `high`. -/
  | outside (value low high : Int)
  deriving DecidableEq

/-- What is wrong with the text. -/
def IntegerError.message : IntegerError → String
  | empty => "cannot parse integer from empty string"
  | invalidDigit => "invalid digit found in string"
  | tooLarge => "number too large to fit in target type"
  | tooSmall => "number too small to fit in target type"
  | outside value low high =>
    toString value ++ " is not in " ++ toString low ++ "..=" ++ toString high

namespace Integer

/-- The value of a decimal digit. -/
def digit? (c : Char) : Option Nat :=
  if c.isDigit then some (c.toNat - '0'.toNat) else none

/-- Reads digits behind a number read so far, none of whose extensions may pass `bound`. -/
def magnitude (overflow : IntegerError) (bound : Nat) : Nat → List Char → Except IntegerError Nat
  | value, [] => .ok value
  | value, c :: rest =>
    match digit? c with
    | none => .error .invalidDigit
    | some d =>
      if value * 10 + d ≤ bound then magnitude overflow bound (value * 10 + d) rest
      else .error overflow

/-- Reads the characters of a number from `low` to `high`, where `low` is not positive and
`high` not negative. -/
def ofChars (low high : Int) : List Char → Except IntegerError Int
  | [] => .error .empty
  | ['+'] | ['-'] => .error .invalidDigit
  | '+' :: digits => (magnitude .tooLarge high.toNat 0 digits).map Int.ofNat
  | '-' :: digits =>
    if low < 0 then (magnitude .tooSmall (-low).toNat 0 digits).map fun n => -Int.ofNat n
    else .error .invalidDigit
  | digits => (magnitude .tooLarge high.toNat 0 digits).map Int.ofNat

/-- Reads a number from `low` to `high`. -/
def read (low high : Int) (text : String) : Except IntegerError Int :=
  ofChars low high text.toList

/-- Reads a number below `2 ^ 64`. -/
def readUnsigned (text : String) : Except IntegerError Nat :=
  (read 0 0xFFFFFFFFFFFFFFFF text).map Int.toNat

/-- Reads a number below `2 ^ 32`. The text may be any signed number of 64 bits, and one
outside the range is told apart from a text that is none. -/
def readRate (text : String) : Except IntegerError UInt32 := do
  let value ← read (-0x8000000000000000) 0x7FFFFFFFFFFFFFFF text
  if 0 ≤ value ∧ value < 0x100000000 then return .ofNat value.toNat
  else throw (.outside value 0 0xFFFFFFFF)

end Integer

end Chip8.CommandLine
