import Chip8.Machine
import Chip8.Picture.Sprite

/-!
# Execution

What each instruction does (`Machine.execute`), and one cycle of the machine
(`Machine.step`) : fetch the instruction at the program counter, execute it, count it.

A fault ends a cycle where it arises. The program counter, the index register, the call stack
and the cycle count then are as before, but what the instruction did before the fault stays :
the dots before the edge of the picture, the digits before the end of memory, the registers
filled so far.
-/

namespace Chip8.Machine

/-- Moves on to the following instruction if all went well. -/
def thenAdvance (o : Outcome Machine Unit) : Outcome Machine Unit :=
  match o.result with
  | .ok () => ⟨{ o.state with pc := following o.state.pc }, .ok ()⟩
  | .error fault => ⟨o.state, .error fault⟩

/-- Draws the `height` bytes at the index register as a sprite, its corner at the values of the
registers `column` and `row`, and sets the flag to tell of a collision. The bytes are read
before anything is drawn. -/
def draw (m : Machine) (column row height : UInt8) : Outcome Machine Unit :=
  match m.memory.readBytes m.index.toNat height.toNat with
  | .error fault => ⟨m, .error fault⟩
  | .ok sprite =>
    let drawn := m.picture.blit (m.registers.get column).toNat (m.registers.get row).toNat sprite
    match drawn.result with
    | .error fault => ⟨{ m with picture := drawn.state }, .error fault⟩
    | .ok collision =>
      let registers := m.registers.set Registers.flag (if collision then 1 else 0)
      ⟨{ m with picture := drawn.state, registers }, .ok ()⟩

/-- The hundreds, tens and ones of a byte. -/
def decimalDigits (value : UInt8) : List UInt8 :=
  [value / 100, value / 10 % 10, value % 10]

/-- Stores the digits of a register in the three cells at the index register. -/
def storeDigits (m : Machine) (register : UInt8) : Outcome Machine Unit :=
  (m.memory.writeBytes m.index.toNat (decimalDigits (m.registers.get register))).onState
    fun memory => { m with memory }

/-- Fills the register with the number `k` from the cell `k` places behind the index register.
A number beyond the last register counts by its low four bits. -/
def fillRegister (m : Machine) (registers : Registers) (k : Nat) : Except Fault Registers :=
  (m.memory.read (m.index.toNat + k)).map (registers.set (.ofNat k))

/-- Fills the registers `0` to `last` from the cells at the index register. -/
def fillRegisters (m : Machine) (last : UInt8) : Outcome Machine Unit :=
  (Outcome.each m.fillRegister m.registers (List.range (last.toNat + 1))).onState
    fun registers => { m with registers }

/-- Executes one instruction. -/
def execute (m : Machine) : Instruction → Outcome Machine Unit
  | .ret =>
    match m.stack.pop with
    | .error fault => ⟨m, .error fault⟩
    | .ok (address, stack) => ⟨{ m with stack, pc := address }, .ok ()⟩
  | .call target =>
    match m.stack.push (following m.pc) with
    | .error fault => ⟨m, .error fault⟩
    | .ok stack => ⟨{ m with stack, pc := target }, .ok ()⟩
  | .set register value =>
    thenAdvance ⟨{ m with registers := m.registers.set register value }, .ok ()⟩
  | .add register value =>
    thenAdvance ⟨{ m with registers := m.registers.add register value }, .ok ()⟩
  | .point address => thenAdvance ⟨{ m with index := address }, .ok ()⟩
  | .draw column row height => thenAdvance (m.draw column row height)
  | .glyph digit => thenAdvance ⟨{ m with index := Font.glyph digit }, .ok ()⟩
  | .decimal register => thenAdvance (m.storeDigits register)
  | .fill last => thenAdvance (m.fillRegisters last)

/-- One cycle : the instruction executed, or why it could not be. -/
def step (m : Machine) : Outcome Machine Instruction :=
  match m.fetch with
  | .error fault => ⟨m, .error fault⟩
  | .ok i =>
    let done := m.execute i
    match done.result with
    | .error fault => ⟨done.state, .error fault⟩
    | .ok () => ⟨{ done.state with cycles := done.state.cycles + 1 }, .ok i⟩

end Chip8.Machine
