import Chip8.Proofs.Execute

/-!
# Cycle after cycle

A machine that is stepped again and again, also after a fault (`Machine.after`). The cycles are
counted from zero : cycle `k` leads from `m.after k` to `m.after (k + 1)`. `Machine.Executes` says
that a cycle completes an instruction, `Machine.Faults` that it ends with a fault, and
`Machine.Completes` that all of the first cycles complete. `Machine.completed` is what they have
executed.

A cycle that completes is the execution of the instruction that was fetched (`Machine.of_step_ok`),
and a cycle with a fault either had nothing to execute or leaves what the failed instruction leaves
(`Machine.of_step_error`).
-/

namespace Chip8

namespace Machine

variable {m : Machine} {i : Instruction} {fault : Fault}

/-- The state that a cycle leaves, whether it completes or not. -/
def next (m : Machine) : Machine := m.step.state

/-- The state after `n` cycles, whether they complete or not. -/
def after (m : Machine) : Nat → Machine
  | 0 => m
  | n + 1 => (m.after n).next

@[simp] theorem after_zero (m : Machine) : m.after 0 = m := rfl

theorem after_succ (m : Machine) (n : Nat) : m.after (n + 1) = (m.after n).next := rfl

theorem after_add (m : Machine) (k : Nat) : ∀ n, m.after (k + n) = (m.after k).after n
  | 0 => rfl
  | n + 1 => congrArg next (m.after_add k n)

theorem after_next (m : Machine) (n : Nat) : m.next.after n = m.after (n + 1) := by
  rw [Nat.add_comm, after_add]
  rfl

/-- Cycle `k` completes the instruction. -/
def Executes (m : Machine) (k : Nat) (i : Instruction) : Prop :=
  (m.after k).step.result = .ok i

/-- Cycle `k` ends with the fault. -/
def Faults (m : Machine) (k : Nat) (fault : Fault) : Prop :=
  (m.after k).step.result = .error fault

/-- The first `n` cycles all complete. -/
def Completes (m : Machine) (n : Nat) : Prop :=
  ∀ k < n, ∃ i, m.Executes k i

/-- The instructions that the first `n` cycles complete, in order. -/
def completed (m : Machine) : Nat → List Instruction
  | 0 => []
  | n + 1 => m.completed n ++ (m.after n).step.result.toOption.toList

theorem Executes.not_faults {k : Nat} (h : m.Executes k i) : ¬m.Faults k fault := by
  intro hf
  rw [Faults, h] at hf
  simp at hf

theorem completes_zero (m : Machine) : m.Completes 0 :=
  fun _ hk => (Nat.not_lt_zero _ hk).elim

theorem executes_next {k : Nat} : m.next.Executes k i ↔ m.Executes (k + 1) i := by
  rw [Executes, Executes, after_next]

theorem faults_next {k : Nat} : m.next.Faults k fault ↔ m.Faults (k + 1) fault := by
  rw [Faults, Faults, after_next]

/-- A first cycle that completes, and `n` more from the state it leaves. -/
theorem completes_succ_of_next {n : Nat} (h0 : m.Executes 0 i) (h : m.next.Completes n) :
    m.Completes (n + 1) := by
  intro k hk
  rcases k with - | k
  · exact ⟨i, h0⟩
  · obtain ⟨j, hj⟩ := h k (by omega)
    exact ⟨j, executes_next.1 hj⟩

theorem Completes.mono {k n : Nat} (h : m.Completes n) (hk : k ≤ n) : m.Completes k :=
  fun j hj => h j (Nat.lt_of_lt_of_le hj hk)

theorem Completes.next {n : Nat} (h : m.Completes (n + 1)) : m.next.Completes n := by
  intro k hk
  obtain ⟨i, hi⟩ := h (k + 1) (by omega)
  exact ⟨i, executes_next.2 hi⟩

/-- Cycles that complete, and more from the state they leave. -/
theorem Completes.add {k n : Nat} (hk : m.Completes k) (hn : (m.after k).Completes n) :
    m.Completes (k + n) := by
  intro j hj
  rcases Nat.lt_or_ge j k with hlt | hge
  · exact hk j hlt
  · obtain ⟨d, rfl⟩ := Nat.exists_eq_add_of_le hge
    obtain ⟨i, hi⟩ := hn d (by omega)
    exact ⟨i, by rwa [Executes, after_add]⟩

theorem completed_succ {n : Nat} (h : m.Executes n i) :
    m.completed (n + 1) = m.completed n ++ [i] := by
  simp only [completed, show (m.after n).step.result = .ok i from h]
  rfl

theorem length_completed {n : Nat} (h : m.Completes n) : (m.completed n).length = n := by
  induction n with
  | zero => rfl
  | succ n ih =>
    obtain ⟨i, hi⟩ := h n (Nat.lt_succ_self n)
    rw [completed_succ hi, List.length_append, ih (h.mono (Nat.le_succ n))]
    rfl

/-! ## One cycle -/

theorem step_of_fetch_error (h : m.fetch = .error fault) : m.step = ⟨m, .error fault⟩ := by
  simp [step, h]

theorem step_of_execute_error (hf : m.fetch = .ok i) (he : (m.execute i).result = .error fault) :
    m.step = ⟨(m.execute i).state, .error fault⟩ := by
  simp [step, hf, he]

theorem step_of_execute_ok (hf : m.fetch = .ok i) (he : (m.execute i).result = .ok ()) :
    m.step =
      ⟨{ (m.execute i).state with cycles := (m.execute i).state.cycles + 1 }, .ok i⟩ := by
  simp [step, hf, he]

theorem step_of_ok (h : m.step.result = .ok i) : m.step = ⟨m.next, .ok i⟩ := by
  rw [next, ← h]

/-- A cycle that completes has executed the instruction it fetched, and counts it. -/
theorem of_step_ok (h : m.step.result = .ok i) : m.fetch = .ok i ∧
    (m.execute i).result = .ok () ∧
      m.next = { (m.execute i).state with cycles := m.cycles + 1 } := by
  obtain ⟨hf, u, hu, hn⟩ := step_ok (step_of_ok h)
  have hc := m.cycles_execute i
  rw [hu] at hc ⊢
  exact ⟨hf, rfl, by rw [hn, hc]⟩

/-- A cycle that completes is a return to the newest address, a call, or goes on to the following
instruction with the stack as it is. -/
theorem control_of_step_ok (h : m.step.result = .ok i) :
    (i = .ret ∧ m.stack.pop = .ok (m.next.pc, m.next.stack)) ∨
      (i = .call m.next.pc ∧ m.stack.push (following m.pc) = .ok m.next.stack) ∨
        (i ≠ .ret ∧ (∀ target, i ≠ .call target) ∧
          m.next.pc = following m.pc ∧ m.next.stack = m.stack) := by
  obtain ⟨-, u, hu, hn⟩ := step_ok (step_of_ok h)
  have hc := execute_control hu
  rw [hn]
  exact hc

/-- A cycle with a fault found no instruction and changed nothing, or its instruction failed. -/
theorem of_step_error (h : m.step.result = .error fault) :
    (m.fetch = .error fault ∧ m.next = m) ∨
      ∃ i, m.fetch = .ok i ∧ (m.execute i).result = .error fault ∧
        m.next = (m.execute i).state := by
  cases hf : m.fetch with
  | error fault' =>
    rw [step_of_fetch_error hf] at h
    exact Or.inl ⟨congrArg _ (Except.error.inj h), by rw [next, step_of_fetch_error hf]⟩
  | ok i =>
    cases he : (m.execute i).result with
    | ok => simp [step_of_execute_ok hf he] at h
    | error fault' =>
      rw [step_of_execute_error hf he] at h
      refine Or.inr ⟨i, rfl, ?_, by rw [next, step_of_execute_error hf he]⟩
      rw [he, Except.error.inj h]

/-- The program counter, the index register, the stack and the count survive a fault. -/
theorem next_of_step_error (h : m.step.result = .error fault) :
    ∃ memory registers picture, m.next = { m with memory, registers, picture } := by
  rcases of_step_error h with ⟨-, hn⟩ | ⟨i, -, he, hn⟩
  · exact ⟨_, _, _, hn⟩
  · rw [hn]
    exact execute_error he

/-- The cycle count goes up with each cycle that completes, modulo `2 ^ 64`. -/
theorem cycles_after (m : Machine) : ∀ n,
    (m.after n).cycles = m.cycles + .ofNat (m.completed n).length
  | 0 => by simp [completed]
  | n + 1 => by
    have ih := m.cycles_after n
    rw [after_succ]
    cases h : (m.after n).step.result with
    | ok i =>
      obtain ⟨-, -, hn⟩ := of_step_ok h
      rw [hn, completed_succ h, ih, List.length_append, List.length_singleton, UInt64.ofNat_add,
        UInt64.add_assoc]
      rfl
    | error fault =>
      obtain ⟨memory, registers, picture, hn⟩ := next_of_step_error h
      simp [hn, ih, completed, h, Except.toOption]

theorem toNat_cycles_after {n : Nat} (h : m.Completes n) (hn : m.cycles.toNat + n < UInt64.size) :
    (m.after n).cycles.toNat = m.cycles.toNat + n := by
  rw [cycles_after, length_completed h, UInt64.toNat_add, UInt64.toNat_ofNat', Nat.add_mod_mod]
  exact Nat.mod_eq_of_lt hn

/-- What is fetched depends on the word at the program counter alone. -/
theorem fetch_congr {t : Machine} (h : t.word = m.word) : t.fetch = m.fetch := by
  rw [fetch, fetch, h]

/-- The instruction that is fetched is read from the word at the program counter. -/
theorem fetch_eq_ok_iff : m.fetch = .ok i ↔
    ∃ word, m.word = .ok word ∧ Instruction.decode word = .ok i := by
  unfold fetch
  cases m.word <;> simp [Except.bind]

theorem fetch_of_read {high low : UInt8} (hh : m.memory.read m.pc.toNat = .ok high)
    (hl : m.memory.read (m.pc.toNat + 1) = .ok low) :
    m.fetch = Instruction.decode (Memory.pair high low) := by
  rw [fetch, word, Memory.word_eq_ok_iff.2 ⟨high, low, hh, hl, rfl⟩]
  rfl

/-! ## Memory from cycle to cycle -/

/-- A cycle changes memory only if it fetches an instruction that stores digits. -/
theorem memory_next_of_ne (h : ∀ register, m.fetch ≠ .ok (.decimal register)) :
    m.next.memory = m.memory := by
  cases hf : m.fetch with
  | error fault => rw [next, step_of_fetch_error hf]
  | ok i =>
    have hi : ∀ register, i ≠ .decimal register := fun register hr => h register (hr ▸ hf)
    cases he : (m.execute i).result with
    | error fault => rw [next, step_of_execute_error hf he, memory_execute hi]
    | ok => rw [next, step_of_execute_ok hf he, memory_execute hi]

/-- A cycle that fetches an instruction that stores digits stores those that have a cell, whether
it completes or not. -/
theorem memory_next_of_decimal {register : UInt8} (hf : m.fetch = .ok (.decimal register)) :
    m.next.memory =
      (m.memory.writeBytes m.index.toNat (decimalDigits (m.registers.get register))).state := by
  cases he : (m.execute (.decimal register)).result with
  | error fault => rw [next, step_of_execute_error hf he, memory_execute_decimal]
  | ok => rw [next, step_of_execute_ok hf he, memory_execute_decimal]

/-! ## A fresh machine -/

/-- An image that fits boots. -/
theorem exists_boot {image : List UInt8} (h : image.length ≤ Memory.capacity) (limit : Nat) :
    ∃ m, boot image limit = .ok m := by
  simp [boot, Memory.load, h, Except.map]

theorem boot_eq_ok_iff {image : List UInt8} {limit : Nat} : boot image limit = .ok m ↔
    ∃ memory, Memory.fresh.load image = .ok memory ∧
      m = ⟨memory, Registers.fresh, 0, entry, CallStack.empty limit, Picture.blank, 0⟩ := by
  unfold boot
  cases Memory.fresh.load image <;> simp [Except.map, eq_comm]

/-- A machine that has booted is at the start of its program, with no call open. -/
theorem of_boot {image : List UInt8} {limit : Nat} (h : boot image limit = .ok m) :
    Memory.fresh.load image = .ok m.memory ∧ m.pc = entry ∧ m.index = 0 ∧
      m.stack = CallStack.empty limit ∧ m.registers = Registers.fresh := by
  obtain ⟨memory, hl, rfl⟩ := boot_eq_ok_iff.1 h
  exact ⟨hl, rfl, rfl, rfl, rfl⟩

theorem cycles_boot {image : List UInt8} {limit : Nat} (h : boot image limit = .ok m) :
    m.cycles = 0 := by
  obtain ⟨memory, -, rfl⟩ := boot_eq_ok_iff.1 h
  rfl

section image

variable {t : Machine} {image : List UInt8} {limit : Nat} {high low : UInt8} (offset : Nat)
  (hb : boot image limit = .ok m) (hm : t.memory = m.memory)
  (hp : t.pc.toNat = Memory.programStart + offset) (hh : image[offset]? = some high)
  (hl : image[offset + 1]? = some low)

include hb hm hp hh hl

/-- The word at a place of the image, as long as memory is as it was loaded. -/
theorem word_of_image : t.word = .ok (Memory.pair high low) := by
  obtain ⟨hload, -⟩ := of_boot hb
  refine Memory.word_eq_ok_iff.2 ⟨high, low, ?_, ?_, rfl⟩
  · rw [hm, hp]
    exact Memory.read_load_of_getElem? _ hload hh
  · rw [hm, hp]
    exact Memory.read_load_of_getElem? _ hload hl

/-- What is fetched there. -/
theorem fetch_of_image : t.fetch = Instruction.decode (Memory.pair high low) := by
  rw [fetch, word_of_image offset hb hm hp hh hl]
  rfl

end image

end Machine

end Chip8
