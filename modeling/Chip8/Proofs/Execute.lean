import Chip8.Machine.Rank
import Chip8.Proofs.Memory
import Chip8.Proofs.Picture

/-!
# What an instruction leaves behind

The parts of a machine that an instruction touches, whether it completes or fails half way. Only
a drawing touches the picture (`Machine.picture_execute`) and only the storing of digits touches
memory (`Machine.memory_execute`), and an instruction that fails leaves the program counter, the
index register, the call stack and the cycle count as they were (`Machine.execute_error`).

A failed instruction may have done some of its work. If it is executed again in the state it left,
it fails in the same way. A drawing is then taken back (`Machine.draw_again`), and any other
instruction finds its work done and leaves the state as it is (`Machine.execute_again`).
-/

namespace Chip8

/-- Registers that hold the same values are equal. -/
theorem Registers.eq_of_get {r s : Registers} (h : ∀ register, r.get register = s.get register) :
    r = s := by
  obtain ⟨values⟩ := r
  obtain ⟨others⟩ := s
  congr 1
  refine Vector.ext fun k hk => ?_
  have hk' : (UInt8.ofNat k).toNat % 16 = k := by
    rw [UInt8.toNat_ofNat']
    omega
  have := h (.ofNat k)
  simpa only [get, hk'] using this

namespace Machine

/-! ## Moving on -/

section thenAdvance

variable (o : Outcome Machine Unit)

@[simp] theorem result_thenAdvance : (thenAdvance o).result = o.result := by
  unfold thenAdvance
  split <;> simp [*]

theorem state_thenAdvance :
    (thenAdvance o).state = { o.state with pc := (thenAdvance o).state.pc } := by
  unfold thenAdvance
  split <;> rfl

@[simp] theorem memory_thenAdvance : (thenAdvance o).state.memory = o.state.memory := by
  rw [state_thenAdvance]

@[simp] theorem picture_thenAdvance : (thenAdvance o).state.picture = o.state.picture := by
  rw [state_thenAdvance]

@[simp] theorem cycles_thenAdvance : (thenAdvance o).state.cycles = o.state.cycles := by
  rw [state_thenAdvance]

theorem thenAdvance_of_error {o : Outcome Machine Unit} {fault : Fault}
    (h : o.result = .error fault) : thenAdvance o = o := by
  obtain ⟨state, result⟩ := o
  obtain rfl : result = .error fault := h
  rfl

end thenAdvance

/-! ## Drawing, storing and filling again -/

/-- A drawing that failed fails in the same way if it is tried again, and is taken back. -/
theorem draw_again {m : Machine} {column row height : UInt8} {fault : Fault}
    (h : (m.draw column row height).result = .error fault) :
    (m.draw column row height).state.draw column row height = ⟨m, .error fault⟩ := by
  cases hs : m.memory.readBytes m.index.toNat height.toNat with
  | error fault' =>
    have hd : m.draw column row height = ⟨m, .error fault'⟩ := by simp [draw, hs]
    rw [hd] at h ⊢
    rw [hd]
    exact congrArg _ h
  | ok sprite =>
    have hb : (m.picture.blit (m.registers.get column).toNat (m.registers.get row).toNat
        sprite).result = .error fault := by
      cases hr : (m.picture.blit (m.registers.get column).toNat (m.registers.get row).toNat
        sprite).result <;> simp_all [draw]
    have hb' := fun p => (Picture.blit_error_iff p _ _ _ _).2
      ((Picture.blit_error_iff _ _ _ _ _).1 hb)
    simp [draw, hs, hb, hb', Picture.blit_twice]

/-- Digits that are stored again, also if some found no cell, are in place already. -/
theorem storeDigits_again (m : Machine) (register : UInt8) :
    (m.storeDigits register).state.storeDigits register = m.storeDigits register := by
  simp only [storeDigits, Outcome.onState, Memory.writeBytes_twice, Memory.result_writeBytes]

/-- The fault of filling the register with the number `k` : its cell is outside memory. -/
def fillFault? (m : Machine) (k : Nat) : Option Fault :=
  match m.memory.read (m.index.toNat + k) with
  | .ok _ => none
  | .error fault => some fault

theorem guarded_fillRegister (m : Machine) : Outcome.Guarded m.fillFault? m.fillRegister where
  refuse := by
    intro k fault h registers
    unfold fillFault? at h
    split at h
    · simp at h
    · rename_i hr
      obtain rfl := Option.some.inj h
      simp [fillRegister, hr, Except.map]
  allow := by
    intro k h registers
    unfold fillFault? at h
    split at h
    · rename_i hr
      simp [fillRegister, hr, Except.map]
    · simp at h

/-- A filling puts a byte of memory into the register it is for. -/
theorem get_fillRegister (m : Machine) (register : UInt8) {r s : Registers} {k : Nat}
    (h : m.fillRegister r k = .ok s) :
    s.get register =
      if register.toNat % 16 = (UInt8.ofNat k).toNat % 16 then
        (m.memory.read (m.index.toNat + k)).toOption.getD 0
      else r.get register := by
  unfold fillRegister at h
  cases hr : m.memory.read (m.index.toNat + k) with
  | error => simp [hr, Except.map] at h
  | ok value =>
    obtain rfl := Except.ok.inj (hr ▸ h)
    rw [Registers.get_set]
    rfl

/-- Registers that are filled again, also if some found no cell, hold the bytes already. -/
theorem fillRegisters_again (m : Machine) (last : UInt8) :
    (m.fillRegisters last).state.fillRegisters last = m.fillRegisters last := by
  have hg := m.guarded_fillRegister
  simp only [fillRegisters, Outcome.onState]
  congr 1
  · congr 1
    refine Registers.eq_of_get fun register => ?_
    exact hg.view_each_again (fun r => r.get register)
      (fun k => register.toNat % 16 = (UInt8.ofNat k).toNat % 16) _
      (fun h => by simpa using m.get_fillRegister register h) _ _
  · exact (hg.result_each _ _).trans (hg.result_each _ _).symm

/-! ## The parts an instruction touches -/

/-- Only a drawing touches the picture. -/
theorem picture_execute {m : Machine} {i : Instruction}
    (hi : ∀ column row height, i ≠ .draw column row height) :
    (m.execute i).state.picture = m.picture := by
  cases i with
  | draw column row height => exact (hi column row height rfl).elim
  | ret | call =>
    simp only [execute]
    split <;> rfl
  | set | add | point | glyph | decimal | fill =>
    simp [execute, storeDigits, fillRegisters, Outcome.onState]

/-- Only the storing of digits touches memory. -/
theorem memory_execute {m : Machine} {i : Instruction} (hi : ∀ register, i ≠ .decimal register) :
    (m.execute i).state.memory = m.memory := by
  cases i with
  | decimal register => exact (hi register rfl).elim
  | ret | call =>
    simp only [execute]
    split <;> rfl
  | draw column row height =>
    obtain ⟨registers, picture, h⟩ := m.draw_frame column row height
    simp [execute, h]
  | set | add | point | glyph | fill => simp [execute, fillRegisters, Outcome.onState]

/-- Storing puts the decimal digits of the register into the cells at the index register. -/
theorem memory_execute_decimal (m : Machine) (register : UInt8) :
    (m.execute (.decimal register)).state.memory =
      (m.memory.writeBytes m.index.toNat (decimalDigits (m.registers.get register))).state := by
  simp [execute, storeDigits, Outcome.onState]

/-- No instruction counts itself. -/
theorem cycles_execute (m : Machine) (i : Instruction) :
    (m.execute i).state.cycles = m.cycles := by
  cases i with
  | ret | call =>
    simp only [execute]
    split <;> rfl
  | draw column row height =>
    obtain ⟨registers, picture, h⟩ := m.draw_frame column row height
    simp [execute, h]
  | set | add | point | glyph | decimal | fill =>
    simp [execute, storeDigits, fillRegisters, Outcome.onState]

/-! ## An instruction that fails -/

/-- An instruction that fails has changed nothing but memory, registers and the picture. -/
theorem execute_error {m : Machine} {i : Instruction} {fault : Fault}
    (h : (m.execute i).result = .error fault) :
    ∃ memory registers picture,
      (m.execute i).state = { m with memory, registers, picture } := by
  cases i with
  | ret | call =>
    simp only [execute] at h ⊢
    split at h
    · exact ⟨_, _, _, rfl⟩
    · simp at h
  | set | add | point | glyph => simp [execute] at h
  | draw column row height =>
    simp only [execute, result_thenAdvance] at h ⊢
    obtain ⟨registers, picture, hd⟩ := m.draw_frame column row height
    rw [thenAdvance_of_error h, hd]
    exact ⟨_, _, _, rfl⟩
  | decimal | fill =>
    simp only [execute, result_thenAdvance] at h ⊢
    rw [thenAdvance_of_error h]
    exact ⟨_, _, _, rfl⟩

theorem execute_draw_again {m : Machine} {column row height : UInt8} {fault : Fault}
    (h : (m.execute (.draw column row height)).result = .error fault) :
    (m.execute (.draw column row height)).state.execute (.draw column row height) =
      ⟨m, .error fault⟩ := by
  simp only [execute, result_thenAdvance] at h ⊢
  rw [thenAdvance_of_error h, draw_again h, thenAdvance_of_error rfl]

/-- An instruction other than a drawing that failed has done what it can, and does and fails as
before if it is executed again. -/
theorem execute_again {m : Machine} {i : Instruction} {fault : Fault}
    (h : (m.execute i).result = .error fault)
    (hi : ∀ column row height, i ≠ .draw column row height) :
    (m.execute i).state.execute i = m.execute i := by
  cases i with
  | ret =>
    cases hp : m.stack.pop with
    | error => simp [execute, hp]
    | ok popped => simp [execute, hp] at h
  | call target =>
    cases hp : m.stack.push (following m.pc) with
    | error => simp [execute, hp]
    | ok pushed => simp [execute, hp] at h
  | set | add | point | glyph => simp [execute] at h
  | draw column row height => exact (hi column row height rfl).elim
  | decimal register =>
    simp only [execute, result_thenAdvance] at h ⊢
    rw [thenAdvance_of_error h, storeDigits_again, thenAdvance_of_error h]
  | fill last =>
    simp only [execute, result_thenAdvance] at h ⊢
    rw [thenAdvance_of_error h, fillRegisters_again, thenAdvance_of_error h]

end Machine

end Chip8
