import Chip8.Numeral

/-!
# Faults

Everything that can end a run. A `Fault` is the cause with the numbers that identify it;
`Fault.message` is the one place that words it. Addresses, coordinates and sizes are natural
numbers, so a fault can name any place a caller asked for, inside the machine or not.
-/

namespace Chip8

/-- The place of an access that missed : a cell of memory or a pixel of the picture. -/
inductive Place where
  | cell (address : Nat)
  | pixel (x y : Nat)
  deriving DecidableEq

/-- The name of a place : an address has at least three hexadecimal digits, coordinates are
decimal. -/
def Place.text : Place → String
  | cell address => "memory address " ++ Numeral.hex 3 address
  | pixel x y => "pixel (" ++ toString x ++ ", " ++ toString y ++ ")"

/-- Why an operation failed. -/
inductive Fault where
  /-- The word is no instruction. -/
  | unknownOpcode (code : UInt16)
  /-- The access is outside memory or outside the picture. -/
  | outOfRange (place : Place)
  /-- A return while no call is open. -/
  | stackUnderflow
  /-- A call while `limit` calls are open. -/
  | stackOverflow (limit : Nat)
  /-- The image is longer than the program area. -/
  | imageTooLong (size capacity : Nat)
  deriving DecidableEq

/-- The diagnostic for a fault. -/
def Fault.message : Fault → String
  | unknownOpcode code => "opcode " ++ Numeral.hex 4 code.toNat ++ " is not implemented"
  | outOfRange place => place.text ++ " is out of range"
  | stackUnderflow => "return with an empty call stack"
  | stackOverflow limit => "call stack exceeded its depth of " ++ toString limit
  | imageTooLong size capacity =>
    "program image of " ++ toString size ++ " bytes does not fit in " ++ toString capacity ++
      " bytes"

end Chip8
