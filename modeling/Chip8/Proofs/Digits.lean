import Chip8.Proofs.Decode
import Chip8.Proofs.Run

/-!
# Digits in memory

The one instruction that writes memory puts the decimal digits of a register into the three cells
at the index register, those of them that there are (`Machine.Covers`). Each cell is therefore
after a cycle what it was before, or it is covered and holds a decimal digit
(`Machine.read_next`), whether the cycle completes or not.
-/

namespace Chip8.Machine

variable {m : Machine} {fault : Fault} {address : Nat}

theorem length_decimalDigits (value : UInt8) : (decimalDigits value).length = 3 := rfl

theorem le_nine_of_mem_decimalDigits {value digit : UInt8} (h : digit ∈ decimalDigits value) :
    digit ≤ 9 := by
  have hv := value.toNat_lt
  rw [UInt8.le_iff_toNat_le]
  simp only [decimalDigits, List.mem_cons, List.not_mem_nil, or_false] at h
  rcases h with rfl | rfl | rfl
  · simp only [UInt8.toNat_div, UInt8.reduceToNat]
    omega
  · simp only [UInt8.toNat_mod, UInt8.toNat_div, UInt8.reduceToNat]
    omega
  · simp only [UInt8.toNat_mod, UInt8.reduceToNat]
    omega

/-- The cycle stores a digit at the address, if memory has a cell there. -/
def Covers (m : Machine) (address : Nat) : Prop :=
  (∃ register, m.fetch = .ok (.decimal register)) ∧
    m.index.toNat ≤ address ∧ address < m.index.toNat + 3

/-- A cell that is covered holds a digit after the cycle. -/
theorem read_next_of_covers (h : m.Covers address) (hlt : address < Memory.size) :
    ∃ digit, digit ≤ 9 ∧ m.next.memory.read address = .ok digit := by
  obtain ⟨⟨register, hf⟩, hle, hgt⟩ := h
  have hlen : address - m.index.toNat < (decimalDigits (m.registers.get register)).length := by
    rw [length_decimalDigits]
    omega
  rw [memory_next_of_decimal hf, Memory.read_writeBytes, if_pos ⟨hle, hlt⟩,
    List.getElem?_eq_getElem hlen]
  exact ⟨_, le_nine_of_mem_decimalDigits (List.getElem_mem hlen), rfl⟩

/-- A cell that is not covered holds what it held. -/
theorem read_next_of_not_covers (h : ¬m.Covers address) :
    m.next.memory.read address = m.memory.read address := by
  by_cases hd : ∃ register, m.fetch = .ok (.decimal register)
  · obtain ⟨register, hf⟩ := hd
    rw [memory_next_of_decimal hf, Memory.read_writeBytes]
    split
    · rename_i hin
      have hlen : (decimalDigits (m.registers.get register)).length ≤ address - m.index.toNat := by
        rw [length_decimalDigits]
        exact Nat.le_of_not_lt fun hlt => h ⟨⟨register, hf⟩, hin.1, by omega⟩
      rw [List.getElem?_eq_none hlen]
      rfl
    · rfl
  · rw [memory_next_of_ne fun register hf => hd ⟨register, hf⟩]

/-- A cycle leaves in a cell what was there, or covers it and leaves a digit. -/
theorem read_next (m : Machine) (address : Nat) :
    m.next.memory.read address = m.memory.read address ∨
      (m.Covers address ∧ ∃ digit, digit ≤ 9 ∧ m.next.memory.read address = .ok digit) := by
  by_cases h : m.Covers address ∧ address < Memory.size
  · exact Or.inr ⟨h.1, read_next_of_covers h.1 h.2⟩
  · refine Or.inl ?_
    rcases Nat.lt_or_ge address Memory.size with hlt | hge
    · exact read_next_of_not_covers fun hc => h ⟨hc, hlt⟩
    · rw [Memory.read_of_le _ hge, Memory.read_of_le _ hge]

/-- Storing digits fails only with the index register at the last two cells or behind. -/
theorem index_of_decimal_error {register : UInt8}
    (h : (m.execute (.decimal register)).result = .error fault) : 0xFFE ≤ m.index.toNat := by
  rcases Nat.lt_or_ge m.index.toNat 0xFFE with hlt | hge
  · have hfit : m.index.toNat + (decimalDigits (m.registers.get register)).length ≤
        Memory.size := by
      rw [length_decimalDigits, Memory.size]
      omega
    rw [execute, result_thenAdvance, storeDigits, Outcome.onState, Memory.result_writeBytes,
      if_pos (Or.inr hfit)] at h
    simp at h
  · exact hge

end Chip8.Machine
