import Chip8.Proofs.Faults

/-!
# Where a machine can get to

The program counter, the index register and the saved addresses are words and could be anything up
to `0xFFFF`. From a fresh machine they cannot : a call goes to an address of three digits, the index
register is pointed at one or at a glyph, and an instruction that was fetched has its following
instruction at most at the end of memory. So they stay within memory and its end
(`Machine.InBounds`), in every cycle and through the stack and back (`Machine.InBounds.next`),
whether the cycle completes or not.

Of all faults a word of memory or a corner of the picture could give, few are left
(`Machine.InBounds.fault_of_step`) : the one address that can be missed is the end of memory, and
the one pixel is near the picture. `Machine.boot_inBounds` puts this together for a fresh machine.
-/

namespace Chip8

/-- Where an instruction points the index register, if it does. -/
def Instruction.pointed? : Instruction → Option UInt16
  | point address => some address
  | glyph digit => some (Font.glyph digit)
  | ret | call _ | set .. | add .. | draw .. | decimal _ | fill _ => none

theorem Instruction.pointed_lt {i : Instruction} (hi : i.Encodable) {address : UInt16}
    (h : i.pointed? = some address) : address.toNat < Memory.size := by
  cases i with
  | point target =>
    obtain rfl := Option.some.inj h
    exact hi
  | glyph digit =>
    obtain rfl := Option.some.inj h
    rw [Font.toNat_glyph, Memory.size]
    omega
  | _ => simp [pointed?] at h

/-- The place of an access within the bounds that misses : the end of memory, or a pixel near the
picture. -/
def Place.Near : Place → Prop
  | .cell address => address = Memory.size
  | .pixel x y => x ≤ 255 ∧ y ≤ 255 ∧ (Picture.width ≤ x ∨ Picture.height ≤ y)

namespace Machine

variable {m : Machine} {i : Instruction} {fault : Fault} {limit : Nat}

theorem index_execute (m : Machine) (i : Instruction) :
    (m.execute i).state.index = i.pointed?.getD m.index := by
  cases i with
  | ret | call =>
    simp only [execute]
    split <;> rfl
  | draw column row height =>
    obtain ⟨registers, picture, h⟩ := m.draw_frame column row height
    rw [execute, state_thenAdvance, h]
    rfl
  | set | add | point | glyph | decimal | fill =>
    rw [execute, state_thenAdvance]
    rfl

theorem encodable_of_fetch (h : m.fetch = .ok i) : i.Encodable := by
  obtain ⟨word, -, hd⟩ := fetch_eq_ok_iff.1 h
  exact Instruction.encodable_of_decode hd

/-! ## The bounds -/

/-- The program counter and the saved addresses point into memory or at its end, the index register
points into memory, and no more than `limit` calls can be open. -/
structure InBounds (m : Machine) (limit : Nat) : Prop where
  pc_le : m.pc.toNat ≤ Memory.size
  index_lt : m.index.toNat < Memory.size
  saved_mem : ∀ address ∈ m.stack.addresses, 2 ≤ address.toNat ∧ address.toNat ≤ Memory.size
  limit_eq : m.stack.limit = limit

theorem inBounds_boot {image : List UInt8} (h : boot image limit = .ok m) : m.InBounds limit := by
  obtain ⟨-, hpc, hindex, hstack, -⟩ := of_boot h
  constructor
  · rw [hpc]
    decide
  · rw [hindex]
    decide
  · simp [hstack, CallStack.empty]
  · rw [hstack]
    rfl

/-- A cycle keeps the bounds, whether it completes or not. -/
theorem InBounds.next (h : m.InBounds limit) : m.next.InBounds limit := by
  cases hs : m.step.result with
  | error fault =>
    obtain ⟨memory, registers, picture, hn⟩ := next_of_step_error hs
    rw [hn]
    exact ⟨h.pc_le, h.index_lt, h.saved_mem, h.limit_eq⟩
  | ok i =>
    obtain ⟨hf, -, hn⟩ := of_step_ok hs
    have hfit := encodable_of_fetch hf
    have hpc := pc_of_fetch hf
    have hfollowing := toNat_following hpc
    have hindex : m.next.index.toNat < Memory.size := by
      have hi := m.index_execute i
      rw [hn, hi]
      cases hp : i.pointed? with
      | none => exact h.index_lt
      | some address => exact i.pointed_lt hfit hp
    rcases control_of_step_ok hs with ⟨-, hpop⟩ | ⟨hcall, hpush⟩ | ⟨-, -, hgo, hstack⟩
    · have ha := CallStack.addresses_of_pop hpop
      refine ⟨(h.saved_mem _ (by simp [ha])).2, hindex,
        fun address hm => h.saved_mem address ?_, ?_⟩
      · simp [ha, hm]
      · exact (CallStack.limit_of_pop hpop).trans h.limit_eq
    · have ha := CallStack.addresses_of_push hpush
      rw [hcall] at hfit
      refine ⟨Nat.le_of_lt hfit, hindex, fun address hm => ?_, ?_⟩
      · rw [ha, Array.mem_push] at hm
        rcases hm with hm | rfl
        · exact h.saved_mem address hm
        · omega
      · exact (CallStack.limit_of_push hpush).trans h.limit_eq
    · refine ⟨by rw [hgo]; omega, hindex, ?_, ?_⟩
      · rw [hstack]
        exact h.saved_mem
      · rw [hstack, h.limit_eq]

theorem InBounds.after (h : m.InBounds limit) : ∀ n, (m.after n).InBounds limit
  | 0 => h
  | n + 1 => (h.after n).next

/-! ## The faults that are left -/

theorem near_firstOutside (column row : UInt8) :
    (Dot.firstOutside column.toNat row.toNat).Near := by
  have := column.toNat_lt
  have := row.toNat_lt
  unfold Dot.firstOutside
  split <;> simp only [Place.Near, Picture.width, Picture.height] <;> omega

theorem near_of_rangeFault? {address count : Nat} (ha : address ≤ Memory.size)
    (h : Memory.rangeFault? address count = some fault) :
    ∃ place, fault = .outOfRange place ∧ place.Near :=
  ⟨_, Memory.rangeFault?_of_some h, Nat.max_eq_right ha⟩

/-- Within the bounds an instruction fails at a place near memory or the picture, or for the
stack. -/
theorem InBounds.fault_of_fault? (h : m.InBounds limit) (hi : m.fault? i = some fault) :
    fault = .stackUnderflow ∨ fault = .stackOverflow limit ∨
      ∃ place, fault = .outOfRange place ∧ place.Near := by
  have hindex := Nat.le_of_lt h.index_lt
  cases i with
  | ret =>
    simp only [fault?, Option.ite_none_right_eq_some] at hi
    exact Or.inl (Option.some.inj hi.2).symm
  | call target =>
    simp only [fault?, Option.ite_none_right_eq_some, h.limit_eq] at hi
    exact Or.inr (Or.inl (Option.some.inj hi.2).symm)
  | set | add | point | glyph => simp [fault?] at hi
  | draw column row height =>
    rcases Option.or_eq_some_iff.1 hi with hr | ⟨-, hs⟩
    · exact Or.inr (Or.inr (near_of_rangeFault? hindex hr))
    · exact Or.inr (Or.inr ⟨_, Dot.spriteFault?_of_some hs, near_firstOutside _ _⟩)
  | decimal | fill => exact Or.inr (Or.inr (near_of_rangeFault? hindex hi))

/-- Within the bounds a cycle ends with a fault that names its word, or for the stack, or at a place
near memory or the picture. -/
theorem InBounds.fault_of_step (h : m.InBounds limit) (hs : m.step.result = .error fault) :
    (∃ word, fault = .unknownOpcode word) ∨ fault = .stackUnderflow ∨
      fault = .stackOverflow limit ∨ ∃ place, fault = .outOfRange place ∧ place.Near := by
  rcases step_error_iff.1 hs with hf | ⟨i, -, hi⟩
  · rcases fetch_error_iff.1 hf with hr | ⟨word, -, hd⟩
    · exact Or.inr (Or.inr (Or.inr (near_of_rangeFault? h.pc_le hr)))
    · exact Or.inl ⟨word, Instruction.eq_of_decode_error hd⟩
  · exact Or.inr (h.fault_of_fault? hi)

/-- In every state that a freshly booted machine can be stepped to, also after faults, its counters
and the saved addresses are within their bounds, and a fault tells of the end of memory or of a
pixel outside the picture. -/
theorem boot_inBounds {image : List UInt8} (hb : boot image limit = .ok m) (n : Nat) :
    (m.after n).pc.toNat ≤ 0x1000 ∧ (m.after n).index.toNat ≤ 0xFFF ∧
    (∀ address ∈ (m.after n).stack.addresses, 2 ≤ address.toNat ∧ address.toNat ≤ 0x1000) ∧
    (m.after n).stack.depth ≤ limit ∧ (m.after n).stack.limit = limit ∧
    (m.after n).cycles.toNat = (m.completed n).length % UInt64.size ∧
    (following (m.after n).pc).toNat = (m.after n).pc.toNat + 2 ∧
    (∀ size capacity, ¬m.Faults n (.imageTooLong size capacity)) ∧
    (∀ address, m.Faults n (.outOfRange (.cell address)) → address = 0x1000) ∧
    ∀ x y, m.Faults n (.outOfRange (.pixel x y)) → x ≤ 255 ∧ y ≤ 255 ∧ (64 ≤ x ∨ 32 ≤ y) := by
  have h := (inBounds_boot hb).after n
  have hpc : (m.after n).pc.toNat ≤ 0x1000 := h.pc_le
  have hdepth : (m.after n).stack.depth ≤ limit := h.limit_eq ▸ (m.after n).stack.depth_le
  have hcycles : (m.after n).cycles.toNat = (m.completed n).length % UInt64.size := by
    obtain ⟨memory, -, rfl⟩ := boot_eq_ok_iff.1 hb
    rw [cycles_after, UInt64.zero_add, UInt64.toNat_ofNat']
  have hfollowing : (following (m.after n).pc).toNat = (m.after n).pc.toNat + 2 := by
    simp only [following, UInt16.toNat_add, UInt16.reduceToNat]
    omega
  refine ⟨hpc, Nat.le_of_lt_succ h.index_lt, h.saved_mem, hdepth, h.limit_eq, hcycles, hfollowing,
    fun size capacity hf => ?_, fun address hf => ?_, fun x y hf => ?_⟩
  · simpa using h.fault_of_step hf
  · simpa [Place.Near] using h.fault_of_step hf
  · simpa [Place.Near] using h.fault_of_step hf

/-- A program that points the index register at the last cell and fills two registers from there. -/
theorem boot_inBounds_fillBehind : ∃ m, boot [0xAF, 0xFF, 0xF1, 0x65] 16 = .ok m ∧
    (∃ address, m.Faults 1 (.outOfRange (.cell address)) ∧ address = 0x1000) ∧
      (m.after 1).index = 0xFFF ∧ (m.after 1).cycles.toNat = 1 := by
  have hlen : ([0xAF, 0xFF, 0xF1, 0x65] : List UInt8).length ≤ Memory.capacity := by decide
  obtain ⟨m, hm⟩ := exists_boot hlen 16
  obtain ⟨-, hpc, -, -, -⟩ := of_boot hm
  have hf0 : m.fetch = .ok (.point 0xFFF) :=
    (fetch_of_image 0 hm rfl (by rw [hpc]; rfl) rfl rfl).trans rfl
  obtain ⟨hpc1, hindex1⟩ : m.next.pc = 0x202 ∧ m.next.index = 0xFFF := by
    rw [next, step_of_execute_ok hf0 rfl]
    exact ⟨congrArg following hpc, rfl⟩
  have hf1 : m.next.fetch = .ok (.fill 1) :=
    (fetch_of_image 2 hm (memory_next_of_ne (by simp [hf0])) (by rw [hpc1]; rfl) rfl rfl).trans rfl
  have hfault : m.Faults 1 (.outOfRange (.cell (max 0xFFF Memory.size))) := by
    refine step_error_iff.2 (Or.inr ⟨_, hf1, ?_⟩)
    rw [fault?, show (m.after 1).index = 0xFFF from hindex1]
    rfl
  have hi0 : m.Executes 0 (.point 0xFFF) := by
    rw [Executes, after_zero, step_of_execute_ok hf0 rfl]
  obtain ⟨-, -, -, -, -, hcycles, -, -, haddress, -⟩ := boot_inBounds hm 1
  refine ⟨m, hm, ⟨_, hfault, haddress _ hfault⟩, hindex1, ?_⟩
  rw [hcycles, completed_succ hi0]
  rfl

end Machine

end Chip8
