import Chip8.Proofs.Blocks
import Chip8.Proofs.Decode
import Chip8.Proofs.Run

/-!
# Programs in memory

A program that is assembled, loaded and fetched is the program that was written
(`Machine.boot_assemble`). Its image has two bytes for each instruction, the high byte of the opcode
first (`Instruction.getElem?_assemble`), and fits if there are no more than 1792 instructions. In
the loaded memory the word at twice the place of an instruction behind the start of the program is
therefore its opcode (`Machine.fetch_of_assemble`), which is read back as the instruction, whatever
else a machine with this memory holds.

Reading an opcode is the inverse of writing it : a word is the opcode of the one instruction with
operands that fit which it is read as, or it is refused and the opcode of none
(`Instruction.decode_cases`).
-/

namespace Chip8

namespace Instruction

theorem length_bytes (i : Instruction) : i.bytes.length = 2 := rfl

theorem length_assemble (program : List Instruction) :
    (assemble program).length = 2 * program.length :=
  length_flatMap_block length_bytes program

/-- The bytes of an instruction stand at twice its place in the program. -/
theorem getElem?_assemble {program : List Instruction} {place : Nat} {i : Instruction}
    (hi : program[place]? = some i) {offset : Nat} (ho : offset < 2) :
    (assemble program)[2 * place + offset]? = i.bytes[offset]? := by
  have hdiv : (2 * place + offset) / 2 = place := by omega
  have hmod : (2 * place + offset) % 2 = offset := by omega
  rw [assemble, getElem?_flatMap_block Nat.two_pos length_bytes, hdiv, hmod, hi]
  rfl

/-- The bytes of an instruction make up its opcode. -/
theorem pair_bytes (i : Instruction) :
    Memory.pair (.ofNat (i.encode.toNat / 256)) (.ofNat (i.encode.toNat % 256)) = i.encode := by
  have := i.encode.toNat_lt
  rw [← UInt16.toNat_inj, Memory.toNat_pair, UInt8.toNat_ofNat', UInt8.toNat_ofNat']
  omega

/-- A word is the opcode of the instruction it is read as, whose operands fit, or it is refused and
the opcode of no instruction whose operands fit. -/
theorem decode_cases (code : Opcode) :
    (∃ i, decode code = .ok i ∧ i.Encodable ∧ i.encode = code) ∨
      (decode code = .error (.unknownOpcode code) ∧
        ∀ i : Instruction, i.Encodable → i.encode ≠ code) := by
  cases hd : decode code with
  | ok i => exact Or.inl ⟨i, rfl, encodable_of_decode hd, encode_of_decode hd⟩
  | error fault =>
    obtain rfl := eq_of_decode_error hd
    refine Or.inr ⟨rfl, fun i hi he => ?_⟩
    rw [← he, decode_encode hi] at hd
    simp at hd

end Instruction

namespace Machine

open Instruction

variable {m t : Machine} {program : List Instruction} {limit place : Nat} {i : Instruction}

/-- What is fetched at the place of an instruction, as long as memory is as it was loaded. -/
theorem fetch_of_assemble (hb : boot (assemble program) limit = .ok m)
    (hm : t.memory = m.memory) (hp : t.pc.toNat = Memory.programStart + 2 * place)
    (hi : program[place]? = some i) (hfit : i.Encodable) : t.fetch = .ok i := by
  have hh := getElem?_assemble hi Nat.two_pos
  have hl := getElem?_assemble hi Nat.one_lt_two
  rw [fetch_of_image (2 * place) hb hm hp hh hl, pair_bytes, decode_encode hfit]

/-- Programs survive assembly, loading and fetching : an assembled program is fetched as it was
written, and a word is read as an instruction exactly if it is the opcode of that one. -/
theorem boot_assemble :
    (∀ program : List Instruction, program.length ≤ 1792 → (∀ i ∈ program, i.Encodable) →
      ∀ limit, ∃ m, boot (assemble program) limit = .ok m ∧
        ∀ t : Machine, t.memory = m.memory → ∀ place i, program[place]? = some i →
          t.pc.toNat = 0x200 + 2 * place → t.fetch = .ok i) ∧
    (∀ code : Opcode, (∃ i, decode code = .ok i ∧ i.Encodable ∧ i.encode = code) ∨
      (decode code = .error (.unknownOpcode code) ∧
        ∀ i : Instruction, i.Encodable → i.encode ≠ code)) ∧
    ∀ (code other : Opcode) (i : Instruction), decode code = .ok i → decode other = .ok i →
      code = other := by
  refine ⟨fun program hlen hfit limit => ?_, decode_cases, fun code other i hc ho => ?_⟩
  · have himage : (assemble program).length ≤ Memory.capacity := by
      rw [length_assemble]
      exact Nat.mul_le_mul_left 2 hlen
    obtain ⟨m, hm⟩ := exists_boot himage limit
    exact ⟨m, hm, fun t ht place i hi hp =>
      fetch_of_assemble hm ht hp hi (hfit i (List.mem_of_getElem? hi))⟩
  · rw [← encode_of_decode hc, encode_of_decode ho]

/-- A program that fills memory to the last cell, with a drawing as its last instruction, and the
one word that is read as that drawing. -/
theorem boot_assemble_full :
    let program := List.replicate 1791 (Instruction.add 0 1) ++ [.draw 1 2 15]
    program.length ≤ 1792 ∧ (∀ i ∈ program, i.Encodable) ∧
      program[1791]? = some (.draw 1 2 15) ∧
        ∃ m, boot (assemble program) 16 = .ok m ∧
          ({ m with pc := 0xFFE } : Machine).fetch = .ok (.draw 1 2 15) ∧
            m.fetch = .ok (.add 0 1) ∧
              decode 0xD12F = .ok (.draw 1 2 15) ∧
                ∀ code, decode code = .ok (.draw 1 2 15) → code = 0xD12F := by
  intro program
  have hlen : program.length ≤ 1792 := by
    rw [List.length_append, List.length_replicate]
    decide
  have hfit : ∀ i ∈ program, i.Encodable := by
    intro i hi
    rcases List.mem_append.1 hi with hi | hi
    · rw [List.eq_of_mem_replicate hi]
      decide
    · rw [List.mem_singleton.1 hi]
      decide
  have hlast : program[1791]? = some (.draw 1 2 15) := by
    rw [List.getElem?_append_right (Nat.le_of_eq List.length_replicate), List.length_replicate]
    rfl
  obtain ⟨m, hm, hfetch⟩ := boot_assemble.1 program hlen hfit 16
  obtain ⟨-, hpc, -⟩ := of_boot hm
  refine ⟨hlen, hfit, hlast, m, hm, hfetch { m with pc := 0xFFE } rfl 1791 _ hlast rfl,
    hfetch m rfl 0 _ rfl (by rw [hpc]; rfl), rfl,
    fun code hc => boot_assemble.2.2 code 0xD12F _ hc rfl⟩

end Machine

end Chip8
