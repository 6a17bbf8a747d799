import Chip8.Proofs.Digits

/-!
# A machine that has halted

A fault is final. Whatever state a machine is in, once a cycle ends with a fault every later cycle
does too, and the program counter, the index register, the call stack and the cycle count stay as
they are (`Machine.faults_of_fault`). The later faults are the first one again, but for one case :
digits stored across the end of memory may fall on the very word that is executed
(`Machine.Overwrites`). What is there then is no instruction, and the later faults say so.

A failed cycle leaves a state that fails too, and the cycle after it leaves either that state again
or, if it was a drawing that failed, the state before both (`Machine.cases_of_fault`). The picture
is therefore the old one after every second cycle.
-/

namespace Chip8.Machine

variable {m : Machine} {fault : Fault}

/-- The instruction stores digits, and those that have a cell of memory, the rest being behind its
end, fall on the instruction itself. -/
def Overwrites (m : Machine) : Prop :=
  (∃ register, m.fetch = .ok (.decimal register)) ∧
    ((m.pc = 0xFFE ∧ (m.index = 0xFFE ∨ m.index = 0xFFF)) ∨ (m.pc = 0xFFD ∧ m.index = 0xFFE))

/-! ## The word after the fault -/

/-- A digit stored before the fault falls on the executed word only if the word overwrites
itself. -/
theorem overwrites_of_covers {register : UInt8} (hf : m.fetch = .ok (.decimal register))
    (he : (m.execute (.decimal register)).result = .error fault)
    (h : m.index.toNat ≤ m.pc.toNat + 1) : m.Overwrites := by
  have hi := index_of_decimal_error he
  have hp := pc_of_fetch hf
  simp only [Memory.size] at hp
  refine ⟨⟨register, hf⟩, ?_⟩
  simp only [← UInt16.toNat_inj, UInt16.reduceToNat]
  omega

/-- The word at the program counter survives a fault, unless it overwrites itself. -/
theorem word_next_of_error (h : m.step.result = .error fault) (ho : ¬m.Overwrites) :
    m.next.word = m.word := by
  rcases of_step_error h with ⟨-, hn⟩ | ⟨i, hf, he, hn⟩
  · rw [hn]
  · obtain ⟨memory, registers, picture, hs⟩ := execute_error he
    have hpc : m.next.pc = m.pc := by rw [hn, hs]
    have hc : ∀ address, address ≤ m.pc.toNat + 1 → ¬m.Covers address := by
      rintro address ha ⟨⟨register, hd⟩, hle, -⟩
      obtain rfl := Except.ok.inj (hf.symm.trans hd)
      exact ho (overwrites_of_covers hf he (by omega))
    rw [word, word, hpc]
    exact Memory.word_congr (read_next_of_not_covers (hc _ (by omega)))
      (read_next_of_not_covers (hc _ (by omega)))

/-- A word that has overwritten itself is no instruction. -/
theorem word_next_of_overwrites (ho : m.Overwrites) (hpc : m.next.pc = m.pc) :
    ∃ word, m.next.word = .ok word ∧ Instruction.decode word = .error (.unknownOpcode word) := by
  obtain ⟨⟨register, hf⟩, hcases⟩ := ho
  obtain ⟨word, hw, hd⟩ := fetch_eq_ok_iff.1 hf
  obtain ⟨high, low, hh, hl, rfl⟩ := Memory.word_eq_ok_iff.1 hw
  -- The low byte is always overwritten, the high byte if the index register is at it.
  have hat : m.Covers (m.pc.toNat + 1) := by
    refine ⟨⟨register, hf⟩, ?_⟩
    simp only [← UInt16.toNat_inj, UInt16.reduceToNat] at hcases
    omega
  obtain ⟨low', hl9, hrl⟩ := read_next_of_covers hat (Memory.lt_of_read hl)
  obtain ⟨high', hh9, hrh⟩ : ∃ high', (high' = high ∨ high' ≤ 9) ∧
      m.next.memory.read m.pc.toNat = .ok high' := by
    rcases m.read_next m.pc.toNat with h | ⟨-, digit, h9, h⟩
    · exact ⟨high, Or.inl rfl, h.trans hh⟩
    · exact ⟨digit, Or.inr h9, h⟩
  refine ⟨Memory.pair high' low', ?_, ?_⟩
  · rw [Machine.word, hpc]
    exact Memory.word_eq_ok_iff.2 ⟨high', low', hrh, hrl, rfl⟩
  cases hdec : Instruction.decode (Memory.pair high' low') with
  | error fault => rw [Instruction.eq_of_decode_error hdec]
  | ok i =>
    exfalso
    have hlow : low = 0x33 := Instruction.low_of_decode_pair hd rfl
    rcases Instruction.decode_pair_of_digits hh9 (Or.inr hl9) hdec with ⟨-, hEE⟩ | ⟨-, j, hj, hk, -⟩
    · exact absurd (hlow.symm.trans hEE) (by decide)
    · obtain rfl := Except.ok.inj (hd.symm.trans hj)
      have hlow' : i.kind.low? = some 0x33 := by rw [← hk]; rfl
      rw [Instruction.low_of_decode_pair hdec hlow'] at hl9
      exact absurd hl9 (by decide)

/-- The three places where an instruction that fails overwrites itself are those where its word is
another one afterwards. -/
theorem overwrites_iff (h : m.step.result = .error fault) :
    m.Overwrites ↔ m.next.word ≠ m.word := by
  refine ⟨fun ho hw => ?_, fun hne => ?_⟩
  · obtain ⟨memory, registers, picture, hn⟩ := next_of_step_error h
    obtain ⟨word, hw', hd⟩ := word_next_of_overwrites ho (by rw [hn])
    obtain ⟨⟨register, hf⟩, -⟩ := ho
    obtain ⟨old, hold, hdec⟩ := fetch_eq_ok_iff.1 hf
    obtain rfl := Except.ok.inj (hw'.symm.trans (hw.trans hold))
    simp [hd] at hdec
  · by_cases ho : m.Overwrites
    · exact ho
    · exact (hne (word_next_of_error h ho)).elim

/-! ## The cycle after the fault -/

/-- What the cycle after a fault comes to. -/
theorem cases_of_fault (h : m.step.result = .error fault) :
    (m.Overwrites ∧ m.next.picture = m.picture ∧ ∃ word, m.next.word = .ok word ∧
        m.next.step = ⟨m.next, .error (.unknownOpcode word)⟩) ∨
      (¬m.Overwrites ∧ m.next.picture = m.picture ∧ m.next.step = ⟨m.next, .error fault⟩) ∨
        (¬m.Overwrites ∧ m.next.step = ⟨m, .error fault⟩) := by
  by_cases ho : m.Overwrites
  · obtain ⟨memory, registers, picture, hn⟩ := next_of_step_error h
    obtain ⟨word, hw, hd⟩ := word_next_of_overwrites ho (by rw [hn])
    refine Or.inl ⟨ho, ?_, word, hw, step_of_fetch_error (by rw [fetch, hw]; exact hd)⟩
    obtain ⟨⟨register, hf⟩, -⟩ := ho
    rcases of_step_error h with ⟨-, hn⟩ | ⟨i, hfi, -, hn⟩
    · rw [hn]
    · obtain rfl := Except.ok.inj (hf.symm.trans hfi)
      rw [hn, picture_execute (by simp)]
  · refine Or.inr ?_
    rcases of_step_error h with ⟨hf, hn⟩ | ⟨i, hf, he, hn⟩
    · exact Or.inl ⟨ho, by rw [hn], by rw [hn, step_of_fetch_error hf]⟩
    · have hf' : m.next.fetch = .ok i := (fetch_congr (word_next_of_error h ho)).trans hf
      by_cases hi : ∃ column row height, i = .draw column row height
      · obtain ⟨column, row, height, rfl⟩ := hi
        have ha := execute_draw_again he
        rw [← hn] at ha
        refine Or.inr ⟨ho, ?_⟩
        rw [step_of_execute_error hf' (congrArg Outcome.result ha), ha]
      · have hne : ∀ column row height, i ≠ .draw column row height :=
          fun column row height hd => hi ⟨column, row, height, hd⟩
        have ha := execute_again he hne
        rw [← hn] at ha
        refine Or.inl ⟨ho, by rw [hn, picture_execute hne], ?_⟩
        rw [step_of_execute_error hf' ((congrArg Outcome.result ha).trans he), ha, hn]

/-! ## All cycles after the fault -/

/-- A state that a failed cycle leaves as it is stays for ever. -/
theorem after_of_rests (h : m.step = ⟨m, .error fault⟩) : ∀ n, m.after n = m
  | 0 => rfl
  | n + 1 => by rw [after_succ, after_of_rests h n, next, h]

theorem after_succ_of_rests (h : m.next.step = ⟨m.next, .error fault⟩) (n : Nat) :
    m.after (n + 1) = m.next := by
  rw [← after_next, after_of_rests h]

theorem faults_succ_of_rests (h : m.next.step = ⟨m.next, .error fault⟩) (n : Nat) :
    m.Faults (n + 1) fault := by
  rw [Faults, after_succ_of_rests h, h]

theorem picture_of_rests (h : m.next.step = ⟨m.next, .error fault⟩)
    (hp : m.next.picture = m.picture) : ∀ n, (m.after n).picture = m.picture
  | 0 => rfl
  | n + 1 => by rw [after_succ_of_rests h, hp]

/-- Two states that failed cycles lead to from each other come in turns. -/
theorem after_of_swaps (h : m.next.step = ⟨m, .error fault⟩) :
    ∀ n, m.after (2 * n) = m ∧ m.after (2 * n + 1) = m.next
  | 0 => ⟨rfl, rfl⟩
  | n + 1 => by
    have h2 : m.after (2 * (n + 1)) = m := by
      rw [show 2 * (n + 1) = 2 * n + 1 + 1 by omega, after_succ, (after_of_swaps h n).2, next, h]
    exact ⟨h2, by rw [after_succ, h2]⟩

/-- Every cycle after one that ended with a fault ends with a fault. -/
theorem exists_faults (h : m.step.result = .error fault) : ∀ n, ∃ later, m.Faults n later
  | 0 => ⟨fault, h⟩
  | n + 1 => by
    obtain ⟨later, hn⟩ := exists_faults h n
    rcases cases_of_fault hn with ⟨-, -, word, -, hs⟩ | ⟨-, -, hs⟩ | ⟨-, hs⟩ <;>
      exact ⟨_, congrArg Outcome.result hs⟩

/-- A fault changes nothing but memory, registers and the picture, and nor do the later ones. -/
theorem after_of_fault (h : m.step.result = .error fault) : ∀ n,
    ∃ memory registers picture, m.after n = { m with memory, registers, picture }
  | 0 => ⟨_, _, _, rfl⟩
  | n + 1 => by
    obtain ⟨later, hl⟩ := exists_faults h n
    obtain ⟨memory, registers, picture, hn⟩ := after_of_fault h n
    obtain ⟨memory', registers', picture', hn'⟩ := next_of_step_error hl
    exact ⟨memory', registers', picture', by rw [after_succ, hn', hn]⟩

/-- A machine that has halted stays halted, where it is. It ends every later cycle with the same
fault, unless the instruction overwrote itself, in one of three places at the end of memory. -/
theorem faults_of_fault (h : m.step.result = .error fault) :
    (∀ n, (∃ later, m.Faults n later) ∧ (m.after n).pc = m.pc ∧ (m.after n).index = m.index ∧
      (m.after n).stack = m.stack ∧ (m.after n).cycles = m.cycles) ∧
    (m.Overwrites ↔ m.next.word ≠ m.word) ∧
    (¬m.Overwrites → ∀ n, m.Faults n fault) ∧
    (m.Overwrites → ∃ word, m.next.word = .ok word ∧
      ∀ n, m.Faults (n + 1) (.unknownOpcode word)) ∧
    ∀ n, (m.after (2 * n)).picture = m.picture := by
  have hcontrol : ∀ n, (∃ later, m.Faults n later) ∧ (m.after n).pc = m.pc ∧
      (m.after n).index = m.index ∧ (m.after n).stack = m.stack ∧
        (m.after n).cycles = m.cycles := by
    intro n
    obtain ⟨memory, registers, picture, hn⟩ := after_of_fault h n
    rw [hn]
    exact ⟨exists_faults h n, rfl, rfl, rfl, rfl⟩
  refine ⟨hcontrol, overwrites_iff h, ?_⟩
  rcases cases_of_fault h with ⟨ho, hp, word, hw, hs⟩ | ⟨ho, hp, hs⟩ | ⟨ho, hs⟩
  · exact ⟨fun hn => (hn ho).elim, fun _ => ⟨word, hw, faults_succ_of_rests hs⟩,
      fun n => picture_of_rests hs hp (2 * n)⟩
  · refine ⟨fun _ n => ?_, fun hn => (ho hn).elim, fun n => picture_of_rests hs hp (2 * n)⟩
    rcases n with - | n
    · exact h
    · exact faults_succ_of_rests hs n
  · refine ⟨fun _ n => ?_, fun hn => (ho hn).elim, fun n => ?_⟩
    · obtain ⟨k, rfl | rfl⟩ : ∃ k, n = 2 * k ∨ n = 2 * k + 1 := ⟨n / 2, by omega⟩
      · rw [Faults, (after_of_swaps hs k).1, h]
      · rw [Faults, (after_of_swaps hs k).2, hs]
    · rw [(after_of_swaps hs n).1]

/-- A store whose second digit has no cell, and whose first falls on the low byte of its own
opcode. -/
def storeOverItself : Machine where
  memory := (Memory.fresh.writeBytes 0xFFE [0xF0, 0x33]).state
  registers := Registers.fresh
  index := 0xFFF
  pc := 0xFFE
  stack := CallStack.empty 16
  picture := Picture.blank
  cycles := 0

theorem fetch_storeOverItself : storeOverItself.fetch = .ok (.decimal 0) := by
  have hread := Memory.read_writeBytes Memory.fresh 0xFFE [0xF0, 0x33]
  have hh : storeOverItself.memory.read 0xFFE = .ok 0xF0 := (hread 0xFFE).trans rfl
  have hl : storeOverItself.memory.read 0xFFF = .ok 0x33 := (hread 0xFFF).trans rfl
  exact fetch_of_read hh hl

theorem faults_of_fault_storeOverItself :
    storeOverItself.step.result = .error (.outOfRange (.cell 0x1000)) ∧
      storeOverItself.Overwrites ∧
        ∃ word, ∀ n, storeOverItself.Faults (n + 1) (.unknownOpcode word) := by
  have he : (storeOverItself.execute (.decimal 0)).result =
      .error (.outOfRange (.cell 0x1000)) := by
    rw [execute, result_thenAdvance, storeDigits, Outcome.onState, Memory.result_writeBytes]
    rfl
  have hs : storeOverItself.step.result = .error (.outOfRange (.cell 0x1000)) := by
    rw [step_of_execute_error fetch_storeOverItself he]
  have ho : storeOverItself.Overwrites :=
    ⟨⟨0, fetch_storeOverItself⟩, Or.inl ⟨rfl, Or.inr rfl⟩⟩
  obtain ⟨word, -, hw⟩ := (faults_of_fault hs).2.2.2.1 ho
  exact ⟨hs, ho, word, hw⟩

end Chip8.Machine
