import Chip8.Proofs.Digits

/-!
# Programs that write over themselves

A program may store digits over its own instructions. What it can make of itself that way is little
(`Machine.digits_harmless`). Through any number of cycles a cell holds what it held at the start or
a decimal digit, and it holds something else only if a store has covered it
(`Machine.read_after`).

Words that are executed mix bytes that were there at the start with digits. Since no digit is the
high byte of an instruction other than a return, nor the last byte of one that has a fixed last
byte, an instruction that comes about is a return or of the kind of the instruction it was made of
(`Machine.fetch_after`). A store, above all, is never made : where one is executed, there was one
at the start (`Machine.hasStore_of_fetch`), and a program without one leaves memory as it is.
-/

namespace Chip8

namespace Memory

/-- Somewhere, at an even address or an odd one, are the two bytes of an instruction that stores
digits. -/
def HasStore (m : Memory) : Prop :=
  ∃ address high, m.read address = .ok high ∧ 0xF0 ≤ high ∧ m.read (address + 1) = .ok 0x33

theorem hasStore_of_decode {m : Memory} {address : Nat} {word : Opcode} {register : UInt8}
    (hw : m.word address = .ok word) (hd : Instruction.decode word = .ok (.decimal register)) :
    m.HasStore := by
  obtain ⟨high, low, hh, hl, rfl⟩ := word_eq_ok_iff.1 hw
  obtain rfl : low = 0x33 := Instruction.low_of_decode_pair hd rfl
  have hf : high.toNat / 16 = 15 := by
    rw [← toNat_family_pair high 0x33, (Instruction.family_of_decode hd).1]
    rfl
  refine ⟨address, high, hh, ?_, hl⟩
  have : 0xF0 ≤ high.toNat := by omega
  exact UInt8.le_iff_toNat_le.2 this

end Memory

namespace Machine

variable {m : Machine} {n : Nat} {i : Instruction}

/-- A cell holds what it held at the start, or was covered since and holds a digit. -/
theorem read_after (m : Machine) (address : Nat) : ∀ n,
    (m.after n).memory.read address = m.memory.read address ∨
      ((∃ k < n, (m.after k).Covers address) ∧
        ∃ digit, digit ≤ 9 ∧ (m.after n).memory.read address = .ok digit)
  | 0 => Or.inl rfl
  | n + 1 => by
    rw [after_succ]
    rcases (m.after n).read_next address with hkeep | ⟨hc, hdigit⟩
    · rw [hkeep]
      refine (read_after m address n).imp_right ?_
      rintro ⟨⟨k, hk, hc⟩, hdigit⟩
      exact ⟨⟨k, Nat.lt_succ_of_lt hk, hc⟩, hdigit⟩
    · exact Or.inr ⟨⟨n, Nat.lt_succ_self n, hc⟩, hdigit⟩

/-- A byte that is read now was there at the start, or is a digit and has taken the place of
another byte. -/
theorem byte_after {address : Nat} {value : UInt8}
    (h : (m.after n).memory.read address = .ok value) :
    ∃ old, m.memory.read address = .ok old ∧ (value = old ∨ value ≤ 9) := by
  have hlt := Memory.lt_of_read h
  refine ⟨_, Memory.read_of_lt _ hlt, ?_⟩
  rcases m.read_after address n with hkeep | ⟨-, digit, h9, hdigit⟩
  · rw [h, Memory.read_of_lt _ hlt] at hkeep
    exact Or.inl (Except.ok.inj hkeep)
  · obtain rfl := Except.ok.inj (h.symm.trans hdigit)
    exact Or.inr h9

/-- The instruction is what the word at an address in `memory` reads, up to the digits of that
word that are operands in its last byte. -/
def Descends (memory : Memory) (address : Nat) (word : Opcode) (i : Instruction) : Prop :=
  ∃ old j, memory.word address = .ok old ∧ Instruction.decode old = .ok j ∧
    j.kind = i.kind ∧ Opcode.x old = Opcode.x word ∧
      (i.kind = .glyph ∨ i.kind = .decimal ∨ i.kind = .fill → j = i)

/-- An instruction that is executed is a return whose last byte was there at the start, or
descends from the instruction that was there. -/
theorem fetch_after (h : (m.after n).fetch = .ok i) :
    (i = .ret ∧ m.memory.read ((m.after n).pc.toNat + 1) = .ok 0xEE) ∨
      ∃ word, (m.after n).word = .ok word ∧
        Descends m.memory (m.after n).pc.toNat word i := by
  obtain ⟨word, hw, hd⟩ := fetch_eq_ok_iff.1 h
  obtain ⟨high', low', hh', hl', rfl⟩ := Memory.word_eq_ok_iff.1 hw
  obtain ⟨high, hh, hhigh⟩ := byte_after hh'
  obtain ⟨low, hl, hlow⟩ := byte_after hl'
  rcases Instruction.decode_pair_of_digits hhigh hlow hd with ⟨hi, hEE⟩ | ⟨rfl, j, hj, hk, hfix⟩
  · exact Or.inl ⟨hi, hEE ▸ hl⟩
  · refine Or.inr ⟨_, hw, _, j, Memory.word_eq_ok_iff.2 ⟨_, low, hh, hl, rfl⟩, hj, hk, ?_, ?_⟩
    · rw [← UInt8.toNat_inj, Memory.toNat_x_pair, Memory.toNat_x_pair]
    · rintro (hi | hi | hi) <;> exact hfix (by rw [hi]; rfl)

/-- No store comes about : where one is executed, there was one at the start. -/
theorem hasStore_of_fetch {register : UInt8} (h : (m.after n).fetch = .ok (.decimal register)) :
    m.memory.HasStore := by
  rcases fetch_after h with ⟨hret, -⟩ | ⟨word, -, old, j, hold, hj, -, -, hfix⟩
  · simp at hret
  · obtain rfl := hfix (Or.inr (Or.inl rfl))
    exact Memory.hasStore_of_decode hold hj

/-- Without a store at the start memory never changes. -/
theorem memory_after_of_not_hasStore (h : ¬m.memory.HasStore) : ∀ n,
    (m.after n).memory = m.memory
  | 0 => rfl
  | n + 1 => by
    rw [after_succ, memory_next_of_ne fun register hf => h (hasStore_of_fetch hf),
      memory_after_of_not_hasStore h n]

/-- What a program can make of itself, from any state on : a cell that a store has covered holds a
decimal digit, and the others what they held. An instruction that is fetched is thus of the kind
that was there at the start, with the same second digit, or a return whose last byte was there. -/
theorem digits_harmless (m : Machine) (n : Nat) :
    (∀ address, (m.after n).memory.read address = m.memory.read address ∨
      ∃ digit, digit ≤ 9 ∧ (m.after n).memory.read address = .ok digit) ∧
    (∀ address, (m.after n).memory.read address ≠ m.memory.read address →
      ∃ k < n, (m.after k).Covers address) ∧
    (∀ i, (m.after n).fetch = .ok i →
      (i = .ret ∧ m.memory.read ((m.after n).pc.toNat + 1) = .ok 0xEE) ∨
        ∃ word, (m.after n).word = .ok word ∧
          Descends m.memory (m.after n).pc.toNat word i) ∧
    (¬m.memory.HasStore → (m.after n).memory = m.memory) := by
  refine ⟨fun address => (m.read_after address n).imp_right And.right, fun address hne => ?_,
    fun i => fetch_after, fun h => memory_after_of_not_hasStore h n⟩
  exact ((m.read_after address n).resolve_left hne).1

/-- A program whose second instruction stores three digits over itself and the instruction behind
it, of which it leaves a return. -/
theorem digits_harmless_storeBehind :
    ∃ m, boot [0xA2, 0x02, 0xF0, 0x33, 0x12, 0xEE] 16 = .ok m ∧
      m.memory.read 0x204 = .ok 0x12 ∧ (m.after 2).memory.read 0x204 = .ok 0 ∧
        (m.after 2).fetch = .ok .ret ∧ m.memory.read 0x205 = .ok 0xEE ∧
          ∃ k < 2, (m.after k).Covers 0x204 := by
  have hlen : ([0xA2, 0x02, 0xF0, 0x33, 0x12, 0xEE] : List UInt8).length ≤ Memory.capacity := by
    decide
  obtain ⟨m, hm⟩ := exists_boot hlen 16
  obtain ⟨hl, hpc, -, -, hr⟩ := of_boot hm
  have hf0 : m.fetch = .ok (.point 0x202) :=
    (fetch_of_image 0 hm rfl (by rw [hpc]; rfl) rfl rfl).trans rfl
  obtain ⟨hpc1, hindex1, hr1⟩ :
      m.next.pc = 0x202 ∧ m.next.index = 0x202 ∧ m.next.registers = Registers.fresh := by
    rw [next, step_of_execute_ok hf0 rfl]
    exact ⟨congrArg following hpc, rfl, hr⟩
  have hm1 : m.next.memory = m.memory := memory_next_of_ne (by simp [hf0])
  have hf1 : m.next.fetch = .ok (.decimal 0) :=
    (fetch_of_image 2 hm hm1 (by rw [hpc1]; rfl) rfl rfl).trans rfl
  have he1 : (m.next.execute (.decimal 0)).result = .ok () := by
    rw [execute, result_thenAdvance, storeDigits, Outcome.onState, Memory.result_writeBytes,
      hindex1]
    rfl
  have hpc2 : (m.after 2).pc = 0x204 := by
    have hs1 : m.next.step.result = .ok (.decimal 0) := by rw [step_of_execute_ok hf1 he1]
    rcases control_of_step_ok hs1 with ⟨h, -⟩ | ⟨h, -⟩ | ⟨-, -, h, -⟩
    · simp at h
    · simp at h
    · exact h.trans (congrArg following hpc1)
  have hm2 : (m.after 2).memory = (m.memory.writeBytes 0x202 [0, 0, 0]).state := by
    rw [after_succ, after_succ, after_zero, memory_next_of_decimal hf1, hm1, hindex1, hr1]
    rfl
  have hread2 := Memory.read_writeBytes m.memory 0x202 [0, 0, 0]
  have hh0 : m.memory.read 0x204 = .ok 0x12 := Memory.read_load_of_getElem? 4 hl rfl
  have hh2 : (m.after 2).memory.read 0x204 = .ok 0 := by
    rw [hm2]
    exact (hread2 0x204).trans rfl
  have hl2 : (m.after 2).memory.read 0x205 = .ok 0xEE := by
    rw [hm2]
    exact (hread2 0x205).trans (Memory.read_load_of_getElem? 5 hl rfl)
  have hf2 : (m.after 2).fetch = .ok .ret :=
    fetch_of_read (by rw [hpc2]; exact hh2) (by rw [hpc2]; exact hl2)
  obtain ⟨-, hcovers, hmade, -⟩ := digits_harmless m 2
  refine ⟨m, hm, hh0, hh2, hf2, ?_, hcovers 0x204 (by simp [hh0, hh2])⟩
  rcases hmade _ hf2 with ⟨-, hEE⟩ | ⟨word, -, old, j, hold, hj, -⟩
  · rwa [hpc2] at hEE
  · -- The word at the start was no instruction.
    obtain ⟨high, low, hh, -, rfl⟩ := Memory.word_eq_ok_iff.1 hold
    rw [hpc2] at hh
    obtain rfl := Except.ok.inj (hh0.symm.trans hh)
    have hf : Opcode.family (Memory.pair 0x12 low) = 0x1 := by
      rw [← UInt8.toNat_inj, Memory.toNat_family_pair]
      rfl
    rw [(Instruction.family_of_decode hj).1] at hf
    cases j <;> simp [Instruction.kind, Instruction.Kind.family] at hf

end Machine

end Chip8
