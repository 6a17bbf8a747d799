import Chip8.Proofs.Bounds

/-!
# Room for more calls

The limit of the stack is looked at by calls only, and only to refuse them. A machine with room for
more calls (`Machine.raise`) therefore does in every cycle what the machine does, and leaves what it
leaves, unless that cycle is a call for which the machine has no room (`Machine.step_raise`). That
call is executed then (`Machine.step_raise_of_overflow`).

Of two machines that boot with one image, the one with the greater limit thus goes along with the
other, and goes on where the other runs out of room (`Machine.boot_raise`).
-/

namespace Chip8

namespace CallStack

variable {s t : CallStack} {address : UInt16} {limit : Nat}

/-- The same addresses with a limit raised to at least `limit`. -/
def raise (s : CallStack) (limit : Nat) : CallStack where
  limit := max s.limit limit
  addresses := s.addresses
  depth_le := Nat.le_trans s.depth_le (Nat.le_max_left _ _)

theorem raise_empty {low high : Nat} (h : low ≤ high) : (empty low).raise high = empty high :=
  ext (Nat.max_eq_right h) rfl

theorem pop_raise (s : CallStack) (limit : Nat) :
    (s.raise limit).pop = s.pop.map fun popped => (popped.1, popped.2.raise limit) := by
  simp only [pop, raise]
  cases s.addresses.back? <;> rfl

theorem push_raise_of_ok (h : s.push address = .ok t) :
    (s.raise limit).push address = .ok (t.raise limit) := by
  unfold push at h ⊢
  split at h
  case isTrue hlt =>
    have hlt' : (s.raise limit).depth < (s.raise limit).limit :=
      Nat.lt_of_lt_of_le hlt (Nat.le_max_left _ _)
    obtain rfl := Except.ok.inj h
    rw [dif_pos hlt']
    rfl
  case isFalse => simp at h

theorem exists_push_raise (h : s.limit < limit) (address : UInt16) :
    ∃ t, (s.raise limit).push address = .ok t := by
  have hlt : (s.raise limit).depth < (s.raise limit).limit :=
    Nat.lt_of_le_of_lt s.depth_le (Nat.lt_of_lt_of_le h (Nat.le_max_right _ _))
  exact ⟨_, by rw [push, dif_pos hlt]⟩

end CallStack

namespace Machine

variable {m : Machine} {i : Instruction} {fault : Fault} {limit : Nat}

/-- The same machine with room for at least `limit` calls. -/
def raise (m : Machine) (limit : Nat) : Machine := { m with stack := m.stack.raise limit }

theorem fetch_raise (m : Machine) (limit : Nat) : (m.raise limit).fetch = m.fetch := rfl

/-! ## One cycle -/

theorem thenAdvance_raise (o : Outcome Machine Unit) (limit : Nat) :
    thenAdvance (o.onState (·.raise limit)) = (thenAdvance o).onState (·.raise limit) := by
  obtain ⟨state, result⟩ := o
  cases result <;> rfl

theorem draw_raise (m : Machine) (limit : Nat) (column row height : UInt8) :
    (m.raise limit).draw column row height =
      (m.draw column row height).onState (·.raise limit) := by
  simp only [draw, raise]
  split
  · rfl
  · split <;> rfl

/-- With room for more calls an instruction does what it does, unless it is refused for want of
room. -/
theorem execute_raise (h : ∀ room, (m.execute i).result ≠ .error (.stackOverflow room)) :
    (m.raise limit).execute i = (m.execute i).onState (·.raise limit) := by
  cases i with
  | ret =>
    simp only [execute, raise, m.stack.pop_raise limit]
    cases m.stack.pop <;> rfl
  | call target =>
    simp only [execute, raise] at h ⊢
    cases hs : m.stack.push (following m.pc) with
    | error fault =>
      obtain ⟨-, rfl⟩ := CallStack.push_error_iff.1 hs
      exact (h m.stack.limit (by rw [hs])).elim
    | ok stack =>
      rw [CallStack.push_raise_of_ok hs]
      rfl
  | set | add | point | glyph => rfl
  | draw column row height => rw [execute, execute, draw_raise, thenAdvance_raise]
  | decimal register => exact thenAdvance_raise (m.storeDigits register) limit
  | fill last => exact thenAdvance_raise (m.fillRegisters last) limit

/-- With room for more calls a cycle does what it does, unless its call is refused for want of
room. -/
theorem step_raise (h : ∀ room, m.step.result ≠ .error (.stackOverflow room)) :
    (m.raise limit).step = m.step.onState (·.raise limit) := by
  cases hf : m.fetch with
  | error fault =>
    rw [step_of_fetch_error hf, step_of_fetch_error ((m.fetch_raise limit).trans hf)]
    rfl
  | ok i =>
    have hf' := (m.fetch_raise limit).trans hf
    cases he : (m.execute i).result with
    | error fault =>
      rw [step_of_execute_error hf he] at h ⊢
      have hx : (m.raise limit).execute i = _ := execute_raise fun room hr =>
        h room (congrArg _ (Except.error.inj (he.symm.trans hr)))
      rw [step_of_execute_error hf' ((congrArg Outcome.result hx).trans he), hx]
      rfl
    | ok =>
      have hx : (m.raise limit).execute i = _ := execute_raise fun room => by simp [he]
      rw [step_of_execute_ok hf he, step_of_execute_ok hf' ((congrArg Outcome.result hx).trans he),
        hx]
      rfl

/-- A cycle that finds no room is a call, and all the room there is is taken. -/
theorem of_overflow {room : Nat} (h : m.step.result = .error (.stackOverflow room)) :
    room = m.stack.limit ∧ ∃ target, m.fetch = .ok (.call target) := by
  rcases step_error_iff.1 h with hf | ⟨i, hf, hi⟩
  · rcases fetch_error_iff.1 hf with hr | ⟨word, -, hd⟩
    · simpa using Memory.rangeFault?_of_some hr
    · simpa using Instruction.eq_of_decode_error hd
  · cases i with
    | call target =>
      simp only [fault?, Option.ite_none_right_eq_some, Option.some.injEq,
        Fault.stackOverflow.injEq] at hi
      exact ⟨hi.2.symm, target, hf⟩
    | ret | set | add | point | glyph => simp [fault?] at hi
    | draw column row height =>
      rcases Option.or_eq_some_iff.1 hi with hr | ⟨-, hs⟩
      · simpa using Memory.rangeFault?_of_some hr
      · simpa using Dot.spriteFault?_of_some hs
    | decimal | fill => simpa using Memory.rangeFault?_of_some hi

/-- With room for one more call, a call that was refused is executed. -/
theorem step_raise_of_overflow {room : Nat} (h : m.step.result = .error (.stackOverflow room))
    (hl : m.stack.limit < limit) :
    ∃ target, m.fetch = .ok (.call target) ∧ (m.raise limit).step.result = .ok (.call target) := by
  obtain ⟨-, target, hf⟩ := of_overflow h
  obtain ⟨stack, hs⟩ := CallStack.exists_push_raise hl (following m.pc)
  have he : ((m.raise limit).execute (.call target)).result = .ok () := by
    simp only [execute, raise, hs]
  exact ⟨target, hf, by rw [step_of_execute_ok ((m.fetch_raise limit).trans hf) he]⟩

/-! ## A whole run -/

theorem next_raise (h : ∀ room, m.step.result ≠ .error (.stackOverflow room)) :
    (m.raise limit).next = m.next.raise limit := by
  rw [next, step_raise h]
  rfl

theorem after_raise : ∀ {n : Nat}, m.Completes n →
    (m.raise limit).after n = (m.after n).raise limit
  | 0, _ => rfl
  | n + 1, h => by
    obtain ⟨i, hi⟩ := h n (Nat.lt_succ_self n)
    rw [after_succ, after_raise (h.mono (Nat.le_succ n)), after_succ]
    exact next_raise fun room => by simp [show (m.after n).step.result = .ok i from hi]

theorem executes_raise {n : Nat} (h : m.Completes n) (hi : m.Executes n i) :
    (m.raise limit).Executes n i := by
  rw [Executes, after_raise h, step_raise fun room => by simp [show _ = _ from hi]]
  exact hi

theorem raise_boot {image : List UInt8} {low high : Nat} (hle : low ≤ high)
    (h : boot image low = .ok m) : boot image high = .ok (m.raise high) := by
  obtain ⟨memory, hl, rfl⟩ := boot_eq_ok_iff.1 h
  refine boot_eq_ok_iff.2 ⟨memory, hl, ?_⟩
  simp only [raise, CallStack.raise_empty hle]

/-- Raising the limit of the stack only postpones the overflow : with a greater limit the same
cycles complete and leave states that differ in the limit alone, up to a call that had no room. -/
theorem boot_raise {image : List UInt8} {low high : Nat} (hle : low ≤ high)
    (hb : boot image low = .ok m) {k : Nat} (hk : m.Completes k) :
    ∃ t, boot image high = .ok t ∧ t.Completes k ∧
      (∀ n < k, ∀ i, m.Executes n i → t.Executes n i) ∧
      (∀ n ≤ k, t.after n = (m.after n).raise high) ∧
      (∀ fault, m.Faults k fault → (∀ room, fault ≠ .stackOverflow room) →
        t.Faults k fault ∧ t.after (k + 1) = (m.after (k + 1)).raise high) ∧
      ∀ room, m.Faults k (.stackOverflow room) → room = low ∧
        (low < high → ∃ target, (m.after k).fetch = .ok (.call target) ∧
          t.Executes k (.call target)) := by
  have hsame : ∀ n < k, ∀ i, m.Executes n i → (m.raise high).Executes n i := fun n hn i =>
    executes_raise (hk.mono (Nat.le_of_lt hn))
  have hlimit : (m.after k).stack.limit = low := ((inBounds_boot hb).after k).limit_eq
  refine ⟨m.raise high, raise_boot hle hb, fun n hn => ?_, hsame,
    fun n hn => after_raise (hk.mono hn), fun fault hf hne => ?_, fun room hf => ?_⟩
  · obtain ⟨i, hi⟩ := hk n hn
    exact ⟨i, hsame n hn i hi⟩
  · have hnot : ∀ room, (m.after k).step.result ≠ .error (.stackOverflow room) := fun room hr =>
      hne room (Except.error.inj (hf.symm.trans hr))
    refine ⟨?_, ?_⟩
    · rw [Faults, after_raise hk, step_raise hnot]
      exact hf
    · rw [after_succ, after_raise hk, next_raise hnot]
      rfl
  · refine ⟨(of_overflow hf).1.trans hlimit, fun hlt => ?_⟩
    simpa only [Executes, after_raise hk] using step_raise_of_overflow hf (hlimit ▸ hlt)

/-- A program that calls itself for ever, with room for one call and for two. -/
theorem boot_raise_selfCall : ∃ m t, boot [0x22, 0x00] 1 = .ok m ∧ boot [0x22, 0x00] 2 = .ok t ∧
    m.Completes 1 ∧ m.Faults 1 (.stackOverflow 1) ∧ t.Executes 1 (.call 0x200) := by
  have hlen : ([0x22, 0x00] : List UInt8).length ≤ Memory.capacity := by decide
  obtain ⟨m, hm⟩ := exists_boot hlen 1
  obtain ⟨-, hpc, -, hs, -⟩ := of_boot hm
  have hf0 : m.fetch = .ok (.call 0x200) :=
    (fetch_of_image 0 hm rfl (by rw [hpc]; rfl) rfl rfl).trans rfl
  have hi0 : m.Executes 0 (.call 0x200) := by
    rw [Executes, after_zero, step_of_execute_ok hf0]
    simp [execute, hs, CallStack.push, CallStack.depth, CallStack.empty]
  have hcomp : m.Completes 1 := fun k hk => ⟨_, Nat.lt_one_iff.1 hk ▸ hi0⟩
  obtain ⟨hpc1, hs1⟩ : m.next.pc = 0x200 ∧ m.stack.push (following m.pc) = .ok m.next.stack := by
    rcases control_of_step_ok hi0 with ⟨h, -⟩ | ⟨h, hpush⟩ | ⟨-, h, -⟩
    · simp at h
    · exact ⟨(Instruction.call.inj h).symm, hpush⟩
    · exact (h _ rfl).elim
  have hf1 : (m.after 1).fetch = .ok (.call 0x200) :=
    (fetch_of_image 0 hm (memory_next_of_ne (by simp [hf0])) (by rw [hpc1]; rfl) rfl rfl).trans rfl
  have hfault : m.Faults 1 (.stackOverflow 1) := by
    refine step_error_iff.2 (Or.inr ⟨_, hf1, ?_⟩)
    have hd : (m.after 1).stack.depth = 1 := by
      simp [after_succ, CallStack.depth, CallStack.addresses_of_push hs1, hs, CallStack.empty]
    have hl : (m.after 1).stack.limit = 1 := ((inBounds_boot hm).after 1).limit_eq
    rw [fault?, hd, hl]
    rfl
  obtain ⟨t, ht, -, -, -, -, hover⟩ := boot_raise (by decide : 1 ≤ 2) hm hcomp
  obtain ⟨target, hft, hit⟩ := (hover 1 hfault).2 (by decide)
  obtain rfl : target = 0x200 := Instruction.call.inj (Except.ok.inj (hft.symm.trans hf1))
  exact ⟨m, t, hm, ht, hcomp, hfault, hit⟩

end Machine

end Chip8
