import Chip8.CallStack
import Chip8.Instruction.Decode
import Chip8.Memory
import Chip8.Picture
import Chip8.Registers

/-!
# The machine

Memory, registers, call stack and picture, with the program counter, the index register and
the number of instructions completed so far. `Machine.boot` loads an image into a fresh
machine, and `Machine.fetch` reads the instruction at the program counter.

The program counter and the index register are words and could point past the end of memory;
an access there is then a fault. After the machine has booted only its instructions change it
(`Chip8.Machine.Execute`).
-/

namespace Chip8

/-- The state of a machine. -/
structure Machine where
  memory : Memory
  registers : Registers
  /-- The index register, where sprites and numbers are read and written. -/
  index : UInt16
  /-- The program counter, where the next instruction is read. -/
  pc : UInt16
  stack : CallStack
  picture : Picture
  /-- Completed instructions, modulo `2 ^ 64`. -/
  cycles : UInt64
  deriving DecidableEq

namespace Machine

/-- The address of the instruction after the one at `pc`. -/
def following (pc : UInt16) : UInt16 := pc + 2

/-- The program counter of a fresh machine. -/
def entry : UInt16 := .ofNat Memory.programStart

/-- A fresh machine with an image in memory and room for `stackLimit` open calls. -/
def boot (image : List UInt8) (stackLimit : Nat) : Except Fault Machine :=
  (Memory.fresh.load image).map fun memory =>
    { memory
      registers := Registers.fresh
      index := 0
      pc := entry
      stack := CallStack.empty stackLimit
      picture := Picture.blank
      cycles := 0 }

/-- The word at the program counter. -/
def word (m : Machine) : Except Fault Opcode :=
  m.memory.word m.pc.toNat

/-- The instruction at the program counter. -/
def fetch (m : Machine) : Except Fault Instruction :=
  m.word.bind Instruction.decode

end Machine

end Chip8
