import Chip8.Fault
import Chip8.Instruction
import Chip8.Opcode

/-!
# Decoding

`Instruction.decode` reads an opcode by its family and, in the families `0` and `F`, by its
last byte. In family `0` only `00EE` is an instruction. A word that is none is refused with
the fault that names it.
-/

namespace Chip8.Instruction

/-- The instruction a word stands for. -/
def decode (code : Opcode) : Except Fault Instruction :=
  match code.family with
  | 0x0 =>
    if code.x = 0 ∧ code.kk = 0xEE then .ok .ret else .error (.unknownOpcode code)
  | 0x2 => .ok (.call code.nnn)
  | 0x6 => .ok (.set code.x code.kk)
  | 0x7 => .ok (.add code.x code.kk)
  | 0xA => .ok (.point code.nnn)
  | 0xD => .ok (.draw code.x code.y code.n)
  | 0xF =>
    match code.kk with
    | 0x29 => .ok (.glyph code.x)
    | 0x33 => .ok (.decimal code.x)
    | 0x65 => .ok (.fill code.x)
    | _ => .error (.unknownOpcode code)
  | _ => .error (.unknownOpcode code)

end Chip8.Instruction
