import Chip8.Proofs.Bounds
import Chip8.Proofs.Digits
import Chip8.Proofs.Effect

/-!
# What a fault leaves behind

A cycle that fails takes nothing back. The program counter, the index register, the stack and the
count are as before it, for they are changed last, but of what the instruction does step by step the
steps before the fault stay. There are three instructions with such steps :

* the storing of digits leaves the leading digits in the last cells (`Machine.DigitsLeft`);
* the filling of registers leaves the last cells in the first registers (`Machine.ValuesLeft`);
* the drawing leaves the bits before the pixel of the fault (`Machine.BitsLeft`).

`Machine.Leaves` says for each part of the machine what a failed cycle leaves of it, and
`Machine.leaves_of_fault` that every failed cycle leaves just that.
-/

namespace Chip8.Machine

variable {m t : Machine} {i : Instruction} {fault : Fault}

/-- The cycle stores digits, and memory ends behind the first or the second. -/
def StoresSome (m : Machine) (register : UInt8) : Prop :=
  m.fetch = .ok (.decimal register) ∧ (m.index = 0xFFE ∨ m.index = 0xFFF)

/-- The cycle fills registers, and the index register points at a cell. -/
def FillsSome (m : Machine) (last : UInt8) : Prop :=
  m.fetch = .ok (.fill last) ∧ m.index ≤ 0xFFF

/-- The cycle draws, and its fault is the pixel in column `fx` of row `fy`. -/
def DrawsUpTo (m : Machine) (fault : Fault) (column row height : UInt8) (fx fy : Nat) : Prop :=
  m.fetch = .ok (.draw column row height) ∧ fault = .outOfRange (.pixel fx fy)

/-- The memory after a storing that runs past the end. The hundreds are in the cell at the index
register, and the tens behind it if there is a cell there. -/
def DigitsLeft (m : Machine) (register : UInt8) (memory : Memory) : Prop :=
  ∃ a b c : UInt8, (a ≤ 9 ∧ b ≤ 9 ∧ c ≤ 9) ∧
    100 * a.toNat + 10 * b.toNat + c.toNat = (m.registers.get register).toNat ∧
      ∀ address, memory.read address =
        if address = m.index.toNat then .ok a
        else if address = m.index.toNat + 1 ∧ address ≤ 0xFFF then .ok b
        else m.memory.read address

/-- The registers after a filling that runs past the end. The cells from the index register to the
end of memory are in the first of them. -/
def ValuesLeft (m : Machine) (registers : Registers) : Prop :=
  ∀ k : UInt8, k < 16 →
    (k.toNat ≤ 0xFFF - m.index.toNat →
      m.memory.read (m.index.toNat + k.toNat) = .ok (registers.get k)) ∧
    (0xFFF - m.index.toNat < k.toNat → registers.get k = m.registers.get k)

/-- The picture after a drawing with its corner in column `x` of row `y` that fails at the pixel in
column `fx` of row `fy` : the bits before that pixel, row by row, are drawn. These are the columns
up to the edge in the first row, or the rows up to the edge, or none. -/
def BitsLeft (m : Machine) (x y : Nat) (height : UInt8) (fx fy : Nat) (picture : Picture) : Prop :=
  ∃ rows : List UInt8, rows.length = height.toNat ∧
    (∀ k (hk : k < rows.length), m.memory.read (m.index.toNat + k) = .ok rows[k]) ∧
    (∀ i j, picture.pixel? i j = (m.picture.pixel? i j).map
      (· ^^ (Dot.spriteBit x y rows i j && decide (j < fy ∨ j = fy ∧ i < fx)))) ∧
    ∀ i j, x ≤ i → i < x + 8 → y ≤ j → (j < fy ∨ j = fy ∧ i < fx ↔
      y < 32 ∧ (x ≤ 56 ∧ j ≤ 31 ∨ 57 ≤ x ∧ x ≤ 63 ∧ j = y ∧ i ≤ 63))

/-- What a cycle that fails leaves. Only a storing of digits changes memory, only a filling changes
registers, so that a drawing that fails does not write the flag, and only a drawing changes the
picture. -/
structure Leaves (m : Machine) (fault : Fault) (t : Machine) : Prop where
  pc : t.pc = m.pc
  index : t.index = m.index
  stack : t.stack = m.stack
  cycles : t.cycles = m.cycles
  memory : (∀ register, ¬m.StoresSome register) → t.memory = m.memory
  digits : ∀ register, m.StoresSome register → m.DigitsLeft register t.memory
  registers : (∀ last, ¬m.FillsSome last) → t.registers = m.registers
  values : ∀ last, m.FillsSome last → m.ValuesLeft t.registers
  picture : (∀ column row height fx fy, ¬m.DrawsUpTo fault column row height fx fy) →
    t.picture = m.picture
  bits : ∀ column row height fx fy, m.DrawsUpTo fault column row height fx fy →
    m.BitsLeft (m.registers.get column).toNat (m.registers.get row).toNat height fx fy t.picture

/-! ## The parts of a failed instruction -/

/-- A drawing that fails has read all its rows and drawn what it could, or has done nothing. -/
theorem draw_of_error {column row height : UInt8}
    (h : (m.draw column row height).result = .error fault) :
    ((∃ address, fault = .outOfRange (.cell address)) ∧ (m.draw column row height).state = m) ∨
      ∃ rows, m.memory.readBytes m.index.toNat height.toNat = .ok rows ∧
        (m.picture.blit (m.registers.get column).toNat (m.registers.get row).toNat rows).result =
          .error fault ∧
        (m.draw column row height).state = { m with
          picture := (m.picture.blit (m.registers.get column).toNat (m.registers.get row).toNat
            rows).state } := by
  cases hr : m.memory.readBytes m.index.toNat height.toNat with
  | error other =>
    have hd : m.draw column row height = ⟨m, .error other⟩ := by simp only [draw, hr]
    rw [hd] at h ⊢
    obtain rfl := Except.error.inj h
    rw [Memory.readBytes_eq] at hr
    cases hf : Memory.rangeFault? m.index.toNat height.toNat with
    | none => simp [hf] at hr
    | some found =>
      rw [hf, Option.elim_some, Except.error.injEq] at hr
      exact Or.inl ⟨⟨_, hr ▸ Memory.rangeFault?_of_some hf⟩, rfl⟩
  | ok rows =>
    refine Or.inr ⟨rows, rfl, ?_⟩
    cases hb : (m.picture.blit (m.registers.get column).toNat (m.registers.get row).toNat
        rows).result with
    | ok collision => simp [draw, hr, hb] at h
    | error other =>
      simp only [draw, hr, hb] at h ⊢
      exact ⟨congrArg Except.error (Except.error.inj h), trivial⟩

/-- Only a filling that fails has touched registers. -/
theorem registers_of_execute_error (h : (m.execute i).result = .error fault)
    (hi : ∀ last, i ≠ .fill last) : (m.execute i).state.registers = m.registers := by
  cases i with
  | fill last => exact (hi last rfl).elim
  | ret | call =>
    simp only [execute] at h ⊢
    split <;> simp_all
  | set | add | point | glyph => simp [execute] at h
  | draw column row height =>
    rw [execute, result_thenAdvance] at h
    rw [execute, thenAdvance_of_error h]
    rcases draw_of_error h with ⟨-, hs⟩ | ⟨rows, -, -, hs⟩ <;> rw [hs]
  | decimal register =>
    rw [execute, result_thenAdvance] at h
    rw [execute, thenAdvance_of_error h]
    rfl

theorem registers_execute_fill (m : Machine) (last : UInt8) :
    (m.execute (.fill last)).state.registers = (m.fillRegisters last).state.registers := by
  rw [execute, state_thenAdvance]

/-- A filling that fails goes past the end of memory before it comes to the last register. -/
theorem end_lt_of_fill_error {last : UInt8} (h : (m.execute (.fill last)).result = .error fault) :
    Memory.size ≤ m.index.toNat + last.toNat := by
  rw [execute, result_thenAdvance] at h
  refine Nat.le_of_not_lt fun hlt => ?_
  simp [fillRegisters_ok_iff.2 hlt] at h

/-! ## The parts after a failed cycle -/

/-- A cycle that fetches an instruction and fails leaves what the instruction leaves. -/
theorem of_step_error_of_fetch (h : m.step.result = .error fault) (hf : m.fetch = .ok i) :
    (m.execute i).result = .error fault ∧ m.next = (m.execute i).state := by
  rcases of_step_error h with ⟨hn, -⟩ | ⟨j, hj, he, hn⟩
  · exact nomatch hn.symm.trans hf
  · obtain rfl := Except.ok.inj (hj.symm.trans hf)
    exact ⟨he, hn⟩

theorem memory_kept (h : m.step.result = .error fault)
    (hs : ∀ register, ¬m.StoresSome register) : m.next.memory = m.memory := by
  by_cases hd : ∃ register, m.fetch = .ok (.decimal register)
  · obtain ⟨register, hf⟩ := hd
    have hlow := index_of_decimal_error (of_step_error_of_fetch h hf).1
    have hnot : ¬(m.index = 0xFFE ∨ m.index = 0xFFF) := fun hi => hs register ⟨hf, hi⟩
    simp only [← UInt16.toNat_inj, UInt16.reduceToNat] at hnot
    rw [memory_next_of_decimal hf, decimalDigits,
      Memory.writeBytes_of_le _ (by simp only [Memory.size]; omega)]
  · exact memory_next_of_ne fun register hf => hd ⟨register, hf⟩

theorem digits_stored {register : UInt8} (hs : m.StoresSome register) :
    m.DigitsLeft register m.next.memory := by
  obtain ⟨hf, hi⟩ := hs
  simp only [← UInt16.toNat_inj, UInt16.reduceToNat] at hi
  obtain ⟨hdigits, hvalue⟩ := decimalDigits_eq_iff.1
    (rfl : decimalDigits (m.registers.get register) = [_, _, _])
  refine ⟨_, _, _, hdigits, hvalue, fun address => ?_⟩
  rw [memory_next_of_decimal hf, decimalDigits]
  rcases Nat.lt_or_ge address Memory.size with ha | ha
  · rw [Memory.read_writeBytes_three _ _ _ _ _ ha]
    simp only [Memory.size] at ha
    have hthird : address ≠ m.index.toNat + 2 := by omega
    have hsecond : address ≤ 0xFFF := by omega
    simp only [hthird, hsecond, and_true, if_false]
  · rw [Memory.read_of_le _ ha]
    simp only [Memory.size] at ha
    rw [if_neg (by omega), if_neg (by omega), Memory.read_of_le _ ha]

theorem registers_kept (h : m.step.result = .error fault) (hs : ∀ last, ¬m.FillsSome last) :
    m.next.registers = m.registers := by
  rcases of_step_error h with ⟨-, hn⟩ | ⟨i, hf, he, hn⟩
  · rw [hn]
  · rw [hn]
    by_cases hi : ∃ last, i = .fill last
    · obtain ⟨last, rfl⟩ := hi
      have hbehind : ¬m.index ≤ 0xFFF := fun hle => hs last ⟨hf, hle⟩
      simp only [UInt16.le_iff_toNat_le, UInt16.reduceToNat] at hbehind
      rw [registers_execute_fill]
      refine Registers.eq_of_get_lt fun k hk =>
        (m.registers_fillRegisters last hk).2 fun n _ hin => ?_
      simp only [Memory.size] at hin
      omega
    · exact registers_of_execute_error he fun last hl => hi ⟨last, hl⟩

theorem values_filled {last : UInt8} (h : m.step.result = .error fault) (hs : m.FillsSome last) :
    m.ValuesLeft m.next.registers := by
  intro k hk
  obtain ⟨hf, hi⟩ := hs
  simp only [UInt16.le_iff_toNat_le, UInt16.reduceToNat] at hi
  obtain ⟨he, hn⟩ := of_step_error_of_fetch h hf
  have hend := end_lt_of_fill_error he
  -- An opcode names at most 16 registers, so that no register is filled twice.
  have hlast : last.toNat < 16 := encodable_of_fetch hf
  obtain ⟨hgreatest, hnone⟩ := m.registers_fillRegisters last hk
  rw [UInt8.lt_iff_toNat_lt, UInt8.toNat_ofNat] at hk
  rw [hn, registers_execute_fill]
  simp only [Memory.size] at hend hgreatest hnone
  refine ⟨fun hle => hgreatest k.toNat ⟨⟨by omega, by omega, by omega⟩, ?_⟩, fun hlt => hnone ?_⟩
  · rintro n ⟨hle, -, hmod⟩
    omega
  · intro n hle hin hmod
    omega

theorem picture_kept (h : m.step.result = .error fault)
    (hs : ∀ column row height fx fy, ¬m.DrawsUpTo fault column row height fx fy) :
    m.next.picture = m.picture := by
  rcases of_step_error h with ⟨-, hn⟩ | ⟨i, hf, he, hn⟩
  · rw [hn]
  · rw [hn]
    by_cases hi : ∃ column row height, i = .draw column row height
    · obtain ⟨column, row, height, rfl⟩ := hi
      rw [execute, result_thenAdvance] at he
      rw [execute, thenAdvance_of_error he]
      rcases draw_of_error he with ⟨-, hd⟩ | ⟨rows, -, hb, -⟩
      · rw [hd]
      · obtain ⟨k, -, hfault, -⟩ :=
          Dot.findSome?_ofSprite_eq_some_iff.1 ((Picture.blit_error_iff _ _ _ _ _).1 hb)
        exact (hs column row height _ _ ⟨hf, hfault⟩).elim
    · exact picture_execute fun column row height hd => hi ⟨column, row, height, hd⟩

theorem bits_drawn {column row height : UInt8} {fx fy : Nat} (h : m.step.result = .error fault)
    (hs : m.DrawsUpTo fault column row height fx fy) :
    m.BitsLeft (m.registers.get column).toNat (m.registers.get row).toNat height fx fy
      m.next.picture := by
  obtain ⟨hf, rfl⟩ := hs
  obtain ⟨he, hn⟩ := of_step_error_of_fetch h hf
  rw [execute, result_thenAdvance] at he
  rcases draw_of_error he with ⟨⟨address, hcell⟩, -⟩ | ⟨rows, hread, hb, hstate⟩
  · simp at hcell
  · obtain ⟨hlen, hrows⟩ := Memory.readBytes_eq_ok_iff.1 hread
    refine ⟨rows, hlen, hrows, fun i j => ?_, fun i j hleft hright htop => ?_⟩
    · rw [hn, execute, thenAdvance_of_error he, hstate]
      exact Picture.pixel?_blit_of_error hb
    · have hplace := (Picture.blit_error_iff _ _ _ _ _).1 hb
      rw [Dot.findSome?_ofSprite] at hplace
      have hfirst := Dot.spriteFault?_of_some hplace
      simp only [Dot.firstOutside, Picture.width, Picture.height] at hfirst
      split at hfirst
      · obtain ⟨rfl, rfl⟩ := Place.pixel.inj (Fault.outOfRange.inj hfirst)
        omega
      · obtain ⟨rfl, rfl⟩ := Place.pixel.inj (Fault.outOfRange.inj hfirst)
        omega

/-- What a failed cycle leaves, part by part. -/
theorem leaves_of_fault (h : m.step.result = .error fault) : m.Leaves fault m.next := by
  obtain ⟨memory, registers, picture, hn⟩ := next_of_step_error h
  exact {
    pc := by rw [hn]
    index := by rw [hn]
    stack := by rw [hn]
    cycles := by rw [hn]
    memory := memory_kept h
    digits := fun _ hs => digits_stored hs
    registers := registers_kept h
    values := fun _ hs => values_filled h hs
    picture := picture_kept h
    bits := fun _ _ _ _ _ hs => bits_drawn h hs }

/-- A row of four set bits in the lowest row, one column too far to the right : the set bits are
drawn, and no flag is written. -/
theorem leaves_of_fault_lastRow : ∃ m : Machine,
    m.step.result = .error (.outOfRange (.pixel 64 31)) ∧
      m.Leaves (.outOfRange (.pixel 64 31)) m.next ∧ m.next.registers = m.registers ∧
        m.picture.pixel? 60 31 = some false ∧ m.next.picture.pixel? 60 31 = some true := by
  have hlen : ([0xD0, 0x11, 0xF0] : List UInt8).length ≤ Memory.capacity := by decide
  obtain ⟨booted, hb⟩ := exists_boot hlen 16
  obtain ⟨hload, hpc, -⟩ := of_boot hb
  let m : Machine := { booted with
    registers := (Registers.fresh.set 0 57).set 1 31, index := 0x202, picture := Picture.blank }
  have hf : m.fetch = .ok (.draw 0 1 1) :=
    (fetch_of_image (t := m) 0 hb rfl (congrArg UInt16.toNat hpc) rfl rfl).trans rfl
  have hs : m.step.result = .error (.outOfRange (.pixel 64 31)) :=
    step_error_iff.2 (Or.inr ⟨_, hf, rfl⟩)
  have hleaves := leaves_of_fault hs
  obtain ⟨rows, hheight, hrows, hpixel, -⟩ := hleaves.bits 0 1 1 64 31 ⟨hf, rfl⟩
  obtain ⟨row, rfl⟩ := List.length_eq_one_iff.1 hheight
  obtain rfl : 0xF0 = row := Except.ok.inj
    ((Memory.read_load_of_getElem? 2 hload rfl).symm.trans (hrows 0 Nat.one_pos))
  refine ⟨m, hs, hleaves, hleaves.registers fun last hfill => ?_, rfl, ?_⟩
  · exact nomatch Except.ok.inj (hf.symm.trans hfill.1)
  · have hx : (m.registers.get 0).toNat = 57 := rfl
    have hy : (m.registers.get 1).toNat = 31 := rfl
    rw [hpixel, hx, hy]
    rfl

end Chip8.Machine
