import Chip8.Numeral

/-!
# Instructions

The nine instructions of the machine and their mnemonics. Operands keep the full range of
their types : an instruction built by hand may name register `0xFF` or a sprite of 200 rows,
and `Instruction.text` shows its operands as they are. Those an opcode can carry are the ones
of `Instruction.decode`.
-/

namespace Chip8

/-- One instruction with its operands. Beside each stands its opcode. -/
inductive Instruction where
  /-- `00EE` : go back to the address on top of the call stack. -/
  | ret
  /-- `2NNN` : put the address of the next instruction on the call stack and go to `target`. -/
  | call (target : UInt16)
  /-- `6XKK` : give a register a value. -/
  | set (register value : UInt8)
  /-- `7XKK` : add a value to a register, without a carry. -/
  | add (register value : UInt8)
  /-- `ANNN` : point the index register at an address. -/
  | point (address : UInt16)
  /-- `DXYN` : draw the sprite at the index register, its corner at the values of two registers. -/
  | draw (column row height : UInt8)
  /-- `FX29` : point the index register at the glyph of the digit `X` itself. -/
  | glyph (digit : UInt8)
  /-- `FX33` : store the three decimal digits of a register at the index register. -/
  | decimal (register : UInt8)
  /-- `FX65` : fill the registers up to `last` from the cells at the index register. -/
  | fill (last : UInt8)
  deriving DecidableEq

namespace Instruction

/-- The name of a register : `V` and its number. -/
def registerName (register : UInt8) : String :=
  "V" ++ Numeral.upperHex register.toNat

/-- The mnemonic of an instruction. -/
def text : Instruction → String
  | ret => "RET"
  | call target => "CALL " ++ Numeral.hex 3 target.toNat
  | set register value =>
    "LD " ++ registerName register ++ ", " ++ Numeral.hex 2 value.toNat
  | add register value =>
    "ADD " ++ registerName register ++ ", " ++ Numeral.hex 2 value.toNat
  | point address => "LD I, " ++ Numeral.hex 3 address.toNat
  | draw column row height =>
    "DRW " ++ registerName column ++ ", " ++ registerName row ++ ", " ++ toString height.toNat
  | glyph digit => "LD F, " ++ Numeral.upperHex digit.toNat
  | decimal register => "LD B, " ++ registerName register
  | fill last => "LD " ++ registerName last ++ ", [I]"

end Instruction

end Chip8
