import Chip8.Fault
import Chip8.Instruction
import Chip8.Level
import Chip8.Period

/-!
# Events

What happens in a run, in records with a level. An `Event` holds the facts, `Event.text` words
them and `Event.source` names the part that tells of them.
-/

namespace Chip8

/-- Something that a machine or a run did. -/
inductive Event where
  /-- An image of `size` bytes was loaded at `address`. -/
  | imageLoaded (size address : Nat)
  /-- The word at `pc` was read; it is an instruction or none. -/
  | fetched (pc word : UInt16) (instruction : Option Instruction)
  /-- A call from `source` opened, as the `depth`-th of at most `limit`. -/
  | called (target source : UInt16) (depth limit : Nat)
  /-- A return at `source` went to `target`. -/
  | returned (source target : UInt16)
  /-- The run is held to one instruction in every `period`. -/
  | paced (period : Period)
  /-- The run was cancelled. -/
  | cancelled (cycles : UInt64)
  /-- The run reached its budget. -/
  | budgetReached (cycles : UInt64)
  /-- A fault ended the run at the instruction at `pc`. -/
  | halted (pc : UInt16) (cycles : UInt64) (fault : Fault)
  deriving DecidableEq

namespace Event

/-- The level of a record. -/
def level : Event → Level
  | imageLoaded .. | called .. | returned .. | paced .. => .debug
  | fetched .. => .trace
  | cancelled .. | budgetReached .. => .info
  | halted .. => .error

/-- The part of the program that a record comes from. -/
def source : Event → String
  | imageLoaded .. => "minichip::memory"
  | fetched .. | called .. | returned .. => "minichip::emulator"
  | paced .. | cancelled .. | budgetReached .. | halted .. => "minichip::runner"

/-- An address in a record. -/
def addressText (address : UInt16) : String := Numeral.hex 3 address.toNat

/-- What a record says. -/
def text : Event → String
  | imageLoaded size address =>
    "loaded " ++ toString size ++ " byte image at " ++ Numeral.hex 3 address
  | fetched pc word instruction =>
    addressText pc ++ ": " ++ Numeral.hexDigits 4 word.toNat ++ "  " ++
      (instruction.map Instruction.text).getD "???"
  | called target source depth limit =>
    "call " ++ addressText target ++ " from " ++ addressText source ++ ", depth " ++
      toString depth ++ "/" ++ toString limit
  | returned source target => "return " ++ addressText source ++ " -> " ++ addressText target
  | paced period => "one instruction every " ++ period.text
  | cancelled cycles => "cancelled after " ++ toString cycles.toNat ++ " cycles"
  | budgetReached cycles => "cycle budget of " ++ toString cycles.toNat ++ " reached"
  | halted pc cycles fault =>
    "halted at " ++ addressText pc ++ " after " ++ toString cycles.toNat ++ " cycles: " ++
      fault.message

end Event

end Chip8
