import Chip8.Proofs.Cells
import Chip8.Proofs.Execute
import Chip8.Proofs.Frame

/-!
# The machine with checks

A machine whose memory, registers and pixels are lists (`Storage`), and its instructions spelled out
as routines on it. Addresses are sums of the index register and a number of places, and are made
before anything is known about the cell (`Storage.offset`). They fit since operands are bytes.

The routine of each instruction meets the instruction (`Storage.meets_execute`). Together with what
the routines of the parts meet, this says that no check fails in any operation
(`Storage.checks_pass`).
-/

namespace Chip8

open Routine (Meets)

/-- The parts of a machine, those with items in lists. -/
structure Storage where
  cells : List UInt8
  registers : List UInt8
  index : UInt16
  pc : UInt16
  stack : CallStack
  pixels : List Bool
  cycles : UInt64

namespace Storage

/-- Works on the cells. -/
def onCells {α : Type} (r : Routine (List UInt8) α) : Routine Storage α :=
  r.within cells fun s cells => { s with cells }

/-- Works on the registers. -/
def onRegisters {α : Type} (r : Routine (List UInt8) α) : Routine Storage α :=
  r.within registers fun s registers => { s with registers }

/-- Works on the pixels. -/
def onPixels {α : Type} (r : Routine (List Bool) α) : Routine Storage α :=
  r.within pixels fun s pixels => { s with pixels }

/-- The address so many cells behind the index register. -/
def offset (k : Nat) : Routine Storage Nat := do
  let index ← Routine.look index
  fit 64 (index.toNat + k)

/-- Goes on at an address. -/
def jump (target : UInt16) : Routine Storage Unit :=
  Routine.change fun s => { s with pc := target }

/-- Goes on with the following instruction. -/
def advance : Routine Storage Unit :=
  Routine.change fun s => { s with pc := Machine.following s.pc }

/-- Puts another stack in place of the stack. -/
def setStack (stack : CallStack) : Routine Storage Unit :=
  Routine.change fun s => { s with stack }

/-- Saves an address. -/
def push (address : UInt16) : Routine Storage Unit := do
  let stack ← (← Routine.look stack).push address
  setStack stack

/-- Takes the newest address. -/
def pop : Routine Storage UInt16 := do
  let (address, stack) ← (← Routine.look stack).pop
  setStack stack
  return address

/-- The byte so many cells behind the index register. -/
def readAt (k : Nat) : Routine Storage UInt8 := do
  onCells (Cells.read (← offset k))

/-- Puts a byte so many cells behind the index register. -/
def writeAt (k : Nat) (value : UInt8) : Routine Storage Unit := do
  onCells (Cells.write (← offset k) value)

/-- Draws the sprite at the index register. Its bytes are read before anything is drawn. -/
def draw (column row height : UInt8) : Routine Storage Unit := do
  let x ← onRegisters (Bank.get column)
  let y ← onRegisters (Bank.get row)
  let sprite ← (List.range height.toNat).mapM readAt
  let collision ← onPixels (Frame.blit x.toNat y.toNat sprite)
  onRegisters (Bank.set Registers.flag (if collision then 1 else 0))

/-- Stores bytes from the index register on. -/
def storeBytes (bytes : List UInt8) : Routine Storage Unit := do
  for (byte, k) in bytes.zipIdx do
    writeAt k byte

/-- Stores the digits of a register at the index register. -/
def storeDigits (register : UInt8) : Routine Storage Unit := do
  let value ← onRegisters (Bank.get register)
  storeBytes (Machine.decimalDigits value)

/-- Fills the registers up to `last` from the cells at the index register. -/
def fillRegisters (last : UInt8) : Routine Storage Unit := do
  for k in List.range (last.toNat + 1) do
    let value ← readAt k
    onRegisters (Bank.set (.ofNat k) value)

/-- Executes an instruction. -/
def execute : Instruction → Routine Storage Unit
  | .ret => do
    let address ← pop
    jump address
  | .call target => do
    let following ← Routine.look fun s => Machine.following s.pc
    push following
    jump target
  | .set register value => do
    onRegisters (Bank.set register value)
    advance
  | .add register value => do
    onRegisters (Bank.add register value)
    advance
  | .point address => do
    Routine.change fun s => { s with index := address }
    advance
  | .draw column row height => do
    draw column row height
    advance
  | .glyph digit => do
    let address ← fit 16 ((digit &&& 0xF).toNat * 5)
    Routine.change fun s => { s with index := .ofNat address }
    advance
  | .decimal register => do
    storeDigits register
    advance
  | .fill last => do
    fillRegisters last
    advance

end Storage

namespace Machine

theorem fillRegister_eq_ok_iff {m : Machine} {r s : Registers} {k : Nat} :
    m.fillRegister r k = .ok s ↔
      ∃ value, m.memory.read (m.index.toNat + k) = .ok value ∧ r.set (.ofNat k) value = s := by
  unfold fillRegister
  cases m.memory.read (m.index.toNat + k) <;> simp [Except.map]

theorem fillRegister_error_iff {m : Machine} {r : Registers} {k : Nat} {fault : Fault} :
    m.fillRegister r k = .error fault ↔ m.memory.read (m.index.toNat + k) = .error fault := by
  unfold fillRegister
  cases m.memory.read (m.index.toNat + k) <;> simp [Except.map]

end Machine

/-- The parts of a machine, in lists. -/
def Machine.storage (m : Machine) : Storage :=
  { cells := m.memory.bytes
    registers := m.registers.bytes
    index := m.index
    pc := m.pc
    stack := m.stack
    pixels := m.picture.pixels
    cycles := m.cycles }

namespace Storage

open Machine (storage)

variable {α : Type} {m : Machine}

theorem meets_onCells {r : Routine (List UInt8) α} {o : Outcome Memory α}
    (h : Meets Memory.bytes r m.memory o) :
    Meets storage (onCells r) m (o.onState fun memory => { m with memory }) :=
  h.within rfl fun _ => rfl

theorem meets_onRegisters {r : Routine (List UInt8) α} {o : Outcome Registers α}
    (h : Meets Registers.bytes r m.registers o) :
    Meets storage (onRegisters r) m (o.onState fun registers => { m with registers }) :=
  h.within rfl fun _ => rfl

theorem meets_onPixels {r : Routine (List Bool) α} {o : Outcome Picture α}
    (h : Meets Picture.pixels r m.picture o) :
    Meets storage (onPixels r) m (o.onState fun picture => { m with picture }) :=
  h.within rfl fun _ => rfl

theorem meets_setRegister (m : Machine) (register value : UInt8) :
    Meets storage (onRegisters (Bank.set register value)) m
      ⟨{ m with registers := m.registers.set register value }, .ok ()⟩ :=
  meets_onRegisters (Bank.meets_set m.registers register value)

/-- An address behind the index register fits, also for the largest operands. -/
theorem meets_offset (m : Machine) {k : Nat} (hk : k < 2 ^ 32) :
    Meets storage (offset k) m ⟨m, .ok (m.index.toNat + k)⟩ := by
  have hindex := m.index.toNat_lt
  have hlt : m.index.toNat + k < 2 ^ 64 := by omega
  exact Routine.meets_look.bind (Routine.meets_check (fit_of_lt hlt))

theorem meets_readAt (m : Machine) {k : Nat} (hk : k < 2 ^ 32) :
    Meets storage (readAt k) m ⟨m, m.memory.read (m.index.toNat + k)⟩ :=
  (meets_offset m hk).bind (meets_onCells (Cells.meets_read m.memory _))

theorem meets_writeAt (m : Machine) {k : Nat} (hk : k < 2 ^ 32) (value : UInt8) :
    Meets storage (writeAt k value) m ((m.memory.edit (.write (m.index.toNat + k) value)).onState
      fun memory => { m with memory }) :=
  (meets_offset m hk).bind (meets_onCells (Cells.meets_write m.memory _ value))

theorem meets_advance (m : Machine) :
    Meets storage advance m ⟨{ m with pc := Machine.following m.pc }, .ok ()⟩ :=
  Routine.meets_change rfl

theorem meets_thenAdvance {r : Routine Storage Unit} {o : Outcome Machine Unit}
    (h : Meets storage r m o) :
    Meets storage (do r; advance) m (Machine.thenAdvance o) := by
  obtain ⟨t, result⟩ := o
  cases result with
  | ok => exact h.bind (meets_advance t)
  | error fault => exact h.bind_error

theorem meets_draw (m : Machine) (column row height : UInt8) :
    Meets storage (draw column row height) m (m.draw column row height) := by
  have hread : Meets storage ((List.range height.toNat).mapM readAt) m
      ⟨m, m.memory.readBytes m.index.toNat height.toNat⟩ := by
    rw [Memory.readBytes, List.range'_eq_map_range, List.mapM_map]
    refine Routine.meets_mapM _ fun k hk => meets_readAt m ?_
    have := List.mem_range.1 hk
    have := height.toNat_lt
    omega
  refine (meets_onRegisters (Bank.meets_get m.registers column)).bind ?_
  refine (meets_onRegisters (Bank.meets_get m.registers row)).bind ?_
  rw [Machine.draw]
  cases hr : m.memory.readBytes m.index.toNat height.toNat with
  | error fault => exact (hr ▸ hread).bind_error
  | ok sprite =>
    refine (hr ▸ hread).bind ?_
    have hplace : ∀ value : UInt8, value.toNat < 2 ^ 64 := fun value =>
      Nat.lt_of_lt_of_le value.toNat_lt (by decide)
    have hblit := meets_onPixels (Frame.meets_blit m.picture (hplace (m.registers.get column))
      (hplace (m.registers.get row)) sprite)
    rcases hdrawn : m.picture.blit (m.registers.get column).toNat (m.registers.get row).toNat
      sprite with ⟨picture, result⟩
    rw [hdrawn] at hblit
    simp only [hdrawn]
    cases result with
    | error fault => exact hblit.bind_error
    | ok collision =>
      exact hblit.bind (meets_setRegister { m with picture } Registers.flag _)

theorem meets_storeBytes (m : Machine) {bytes : List UInt8} (hlen : bytes.length < 2 ^ 32) :
    Meets storage (storeBytes bytes) m
      ((m.memory.writeBytes m.index.toNat bytes).onState fun memory => { m with memory }) := by
  -- The loop changes memory only, so its state is memory, shown in the machine that it is part of.
  let view : Memory → Storage := fun memory => storage { m with memory }
  have hloop : Meets view (storeBytes bytes) m.memory _ :=
    Routine.meets_forIn_unit view (fun cell => (cell.1, m.index.toNat + cell.2))
      Memory.guarded_write bytes.zipIdx m.memory fun k hk => ?_
  · rw [← List.zipIdx_eq_map_add] at hloop
    exact hloop
  · rw [List.length_zipIdx] at hk
    rw [List.getElem_zipIdx, Nat.zero_add]
    have hat : ∀ memory : Memory, Meets view (writeAt k bytes[k]) memory
        (memory.edit (.write (m.index.toNat + k) bytes[k])) := fun memory =>
      meets_writeAt { m with memory } (Nat.lt_trans hk hlen) bytes[k]
    constructor
    · intro memory next hwrite
      have hdone := hat memory
      rw [Memory.edit, hwrite] at hdone
      exact hdone.bind Routine.meets_pure
    · intro memory fault hwrite
      have hfail := hat memory
      rw [Memory.edit, hwrite] at hfail
      exact hfail.bind_error

theorem meets_storeDigits (m : Machine) (register : UInt8) :
    Meets storage (storeDigits register) m (m.storeDigits register) :=
  (meets_onRegisters (Bank.meets_get m.registers register)).bind <|
    meets_storeBytes m (by decide : 3 < 2 ^ 32)

theorem meets_fillRegisters (m : Machine) (last : UInt8) :
    Meets storage (fillRegisters last) m (m.fillRegisters last) := by
  let view : Registers → Storage := fun registers => storage { m with registers }
  have hloop : Meets view (fillRegisters last) m.registers _ :=
    Routine.meets_forIn_unit view id m.guarded_fillRegister
      (List.range (last.toNat + 1)) m.registers fun k hk => ?_
  · rw [List.map_id] at hloop
    exact hloop
  · have hlt : k < 2 ^ 32 := by
      have := last.toNat_lt
      rw [List.length_range] at hk
      omega
    rw [List.getElem_range]
    have hread : ∀ registers : Registers, Meets view (readAt k) registers
        ⟨registers, m.memory.read (m.index.toNat + k)⟩ := fun registers =>
      meets_readAt { m with registers } hlt
    have hset : ∀ (registers : Registers) (value : UInt8),
        Meets view (onRegisters (Bank.set (.ofNat k) value)) registers
          ⟨registers.set (.ofNat k) value, .ok ()⟩ :=
      fun registers value => meets_setRegister { m with registers } (.ofNat k) value
    constructor
    · intro registers next hfill
      obtain ⟨value, hvalue, rfl⟩ := Machine.fillRegister_eq_ok_iff.1 hfill
      exact (hvalue ▸ hread registers).bind <| (hset registers value).bind Routine.meets_pure
    · intro registers fault hfill
      exact (Machine.fillRegister_error_iff.1 hfill ▸ hread registers).bind_error

theorem meets_jump (m : Machine) (target : UInt16) :
    Meets storage (jump target) m ⟨{ m with pc := target }, .ok ()⟩ :=
  Routine.meets_change rfl

theorem meets_setStack (m : Machine) (stack : CallStack) :
    Meets storage (setStack stack) m ⟨{ m with stack }, .ok ()⟩ :=
  Routine.meets_change rfl

theorem meets_ret (m : Machine) : Meets storage (execute .ret) m (m.execute .ret) := by
  rw [Machine.execute]
  cases hpop : m.stack.pop with
  | error fault =>
    have hfail : Meets storage pop m ⟨m, .error fault⟩ :=
      Routine.meets_look.bind (Routine.meets_result hpop).bind_error
    exact hfail.bind_error
  | ok saved =>
    obtain ⟨address, stack⟩ := saved
    have hdone : Meets storage pop m ⟨{ m with stack }, .ok address⟩ :=
      Routine.meets_look.bind <| (Routine.meets_result hpop).bind <|
        (meets_setStack m stack).bind Routine.meets_pure
    exact hdone.bind (meets_jump _ address)

theorem meets_call (m : Machine) (target : UInt16) :
    Meets storage (execute (.call target)) m (m.execute (.call target)) := by
  refine Routine.meets_look.bind ?_
  rw [Machine.execute]
  cases hpush : m.stack.push (Machine.following m.pc) with
  | error fault =>
    have hfail : Meets storage (push (Machine.following m.pc)) m ⟨m, .error fault⟩ :=
      Routine.meets_look.bind (Routine.meets_result hpush).bind_error
    exact hfail.bind_error
  | ok stack =>
    have hdone : Meets storage (push (Machine.following m.pc)) m ⟨{ m with stack }, .ok ()⟩ :=
      Routine.meets_look.bind <| (Routine.meets_result hpush).bind (meets_setStack m stack)
    exact hdone.bind (meets_jump _ target)

theorem meets_glyph (m : Machine) (digit : UInt8) :
    Meets storage (execute (.glyph digit)) m (m.execute (.glyph digit)) := by
  have hlt : (digit &&& 0xF).toNat * 5 < 2 ^ 16 := by
    rw [Bank.toNat_low]
    omega
  have hglyph : UInt16.ofNat ((digit &&& 0xF).toNat * 5) = Font.glyph digit := by
    rw [Bank.toNat_low]
    rfl
  refine (Routine.meets_check (fit_of_lt hlt)).bind ?_
  rw [hglyph]
  exact meets_thenAdvance (Routine.meets_change rfl)

theorem meets_execute (m : Machine) (i : Instruction) :
    Meets storage (execute i) m (m.execute i) := by
  cases i with
  | ret => exact meets_ret m
  | call target => exact meets_call m target
  | set register value => exact meets_thenAdvance (meets_setRegister m register value)
  | add register value =>
    exact meets_thenAdvance (meets_onRegisters (Bank.meets_add m.registers register value))
  | point address => exact meets_thenAdvance (Routine.meets_change rfl)
  | draw column row height => exact meets_thenAdvance (meets_draw m column row height)
  | glyph digit => exact meets_glyph m digit
  | decimal register => exact meets_thenAdvance (meets_storeDigits m register)
  | fill last => exact meets_thenAdvance (meets_fillRegisters m last)

/-- All checks pass, for any operands, contents and lengths, so every operation comes to what it
comes to without checks. A sprite with a row fails at its corner wherever that is outside the
picture, and a word behind the end of memory at its address : what would not fit is not computed. -/
theorem checks_pass :
    (∀ (p : Picture) (x y : UInt64),
      (∀ bit, Meets Picture.pixels (Frame.xorAt x.toNat y.toNat bit) p
        (p.stroke (.dot x.toNat y.toNat bit))) ∧
      (∀ rows, Meets Picture.pixels (Frame.blit x.toNat y.toNat rows) p
        (p.blit x.toNat y.toNat rows)) ∧
      Meets Picture.pixels (Frame.pixel? x.toNat y.toNat) p ⟨p, .ok (p.pixel? x.toNat y.toNat)⟩) ∧
    (∀ (m : Memory) (address : UInt64),
      Meets Memory.bytes (Cells.read address.toNat) m ⟨m, m.read address.toNat⟩ ∧
      (∀ value, Meets Memory.bytes (Cells.write address.toNat value) m
        (m.edit (.write address.toNat value))) ∧
      Meets Memory.bytes (Cells.word address.toNat) m ⟨m, m.word address.toNat⟩) ∧
    (∀ (m : Memory) image, Meets Memory.bytes (Cells.load image) m (m.edit (.load image))) ∧
    Routine.copy 0 80 Font.bytes.toList (List.replicate Memory.size 0) =
      some ⟨Memory.fresh.bytes, .ok ()⟩ ∧
    (∀ (r : Registers) register,
      Meets Registers.bytes (Bank.get register) r ⟨r, .ok (r.get register)⟩ ∧
      ∀ value, Meets Registers.bytes (Bank.set register value) r ⟨r.set register value, .ok ()⟩ ∧
        Meets Registers.bytes (Bank.add register value) r ⟨r.add register value, .ok ()⟩) ∧
    (∀ (m : Machine) i, Meets Machine.storage (execute i) m (m.execute i)) ∧
    (∀ (p : Picture) (x y : UInt64) rows, 64 ≤ x.toNat ∨ 32 ≤ y.toNat → rows ≠ [] →
      p.blit x.toNat y.toNat rows = ⟨p, .error (.outOfRange (.pixel x.toNat y.toNat))⟩) ∧
    ∀ (m : Memory) (address : UInt64), 4096 ≤ address.toNat →
      m.word address.toNat = .error (.outOfRange (.cell address.toNat)) := by
  refine ⟨fun p x y => ⟨fun bit => Frame.meets_xorAt p _ _ bit,
      fun rows => Frame.meets_blit p x.toNat_lt y.toNat_lt rows, Frame.meets_pixel? p _ _⟩,
    fun m address => ⟨Cells.meets_read m _, fun value => Cells.meets_write m _ value,
      Cells.meets_word m _⟩,
    Cells.meets_load, Cells.copy_font, fun r register => ⟨Bank.meets_get r register,
      fun value => ⟨Bank.meets_set r register value, Bank.meets_add r register value⟩⟩,
    meets_execute, fun p x y rows hout hrows => p.blit_of_outside (by omega) hrows,
    fun m address hout => ?_⟩
  rw [(m.word_cases _).2 (Nat.le_of_succ_le hout), if_neg (Nat.not_lt.2 hout)]

/-- A sprite without rows does not fail there. -/
theorem emptySprite_far : ¬∀ (p : Picture) (x y : UInt64) (rows : List UInt8),
    2 ^ 64 - 8 ≤ x.toNat ∨ 2 ^ 64 - 8 ≤ y.toNat →
      (p.blit x.toNat y.toNat rows).result = .error (.outOfRange (.pixel x.toNat y.toNat)) := by
  intro h
  have hempty := h Picture.blank 0xFFFFFFFFFFFFFFFF 0 [] (Or.inl (by decide))
  exact nomatch hempty

/-- A column that does not fit if three is added to it, the largest address, and a machine with the
largest index register that fills its registers with the largest operand. -/
theorem checks_pass_far :
    fit 64 (0xFFFFFFFFFFFFFFFD + 3) = none ∧
    Frame.blit 0xFFFFFFFFFFFFFFFD 1 [0xFF] Picture.blank.pixels =
      some ⟨Picture.blank.pixels, .error (.outOfRange (.pixel 0xFFFFFFFFFFFFFFFD 1))⟩ ∧
    Cells.word 0xFFFFFFFFFFFFFFFF Memory.fresh.bytes =
      some ⟨Memory.fresh.bytes, .error (.outOfRange (.cell 0xFFFFFFFFFFFFFFFF))⟩ ∧
    ∃ m : Machine, m.index = 0xFFFF ∧
      execute (.fill 0xFF) m.storage = some ⟨m.storage, .error (.outOfRange (.cell 0xFFFF))⟩ := by
  obtain ⟨hpicture, hmemory, -, -, -, hexecute, hsprite, hword⟩ := checks_pass
  let m : Machine :=
    { memory := Memory.fresh
      registers := Registers.fresh
      index := 0xFFFF
      pc := Machine.entry
      stack := CallStack.empty 0
      picture := Picture.blank
      cycles := 0 }
  have hfill : m.execute (.fill 0xFF) = ⟨m, .error (.outOfRange (.cell 0xFFFF))⟩ := rfl
  have hfar := (hpicture Picture.blank 0xFFFFFFFFFFFFFFFD 1).2.1 [0xFF]
  rw [hsprite _ _ _ _ (Or.inl (by decide)) (List.cons_ne_nil _ _)] at hfar
  have hlast := (hmemory Memory.fresh 0xFFFFFFFFFFFFFFFF).2.2
  rw [hword _ _ (by decide)] at hlast
  have hrun := hexecute m (.fill 0xFF)
  rw [hfill] at hrun
  exact ⟨by decide, hfar, hlast, m, rfl, hrun⟩

end Storage

end Chip8
