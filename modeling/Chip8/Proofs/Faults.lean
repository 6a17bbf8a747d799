import Chip8.Proofs.Decode
import Chip8.Proofs.Run

/-!
# Why a cycle fails

The loops of the machine go through consecutive places : cells of memory, columns and rows of the
picture. Such a loop fails if it reaches past the last place there is, and then at the first place
behind it, or at its own first place if that is behind it already (`findSome?_range'`). There is
thus one address at which reading, storing and filling can miss (`Memory.rangeFault?`) and one pixel
at which a drawing can (`Dot.spriteFault?`).

`Machine.fault?` tells from this, without executing it, whether an instruction fails and with what
(`Machine.execute_error_iff`). A cycle fails if its word cannot be read or is no instruction
(`Machine.fetch_error_iff`), or is one that fails (`Machine.step_error_iff`).

`Machine.Cause` lists all that can be behind this, with the fault that each cause leads to. A cycle
fails exactly if one of them is there (`Machine.step_fails_iff`).
-/

namespace Chip8

/-- A search through consecutive numbers for one that is not below a bound finds the bound, or the
first of the numbers if that is above it. -/
theorem findSome?_range' {α : Type} (bound : Nat) (found : Nat → α) : ∀ start count,
    (List.range' start count).findSome? (fun k => if k < bound then none else some (found k)) =
      if count = 0 ∨ start + count ≤ bound then none else some (found (max start bound))
  | _, 0 => by simp
  | start, count + 1 => by
    rw [List.range'_succ, List.findSome?_cons]
    rcases Nat.lt_or_ge start bound with hs | hs
    · rw [if_pos hs]
      simp only [findSome?_range' bound found (start + 1) count]
      have hmax : max (start + 1) bound = max start bound := by omega
      rcases count with - | count
      · simp [Nat.succ_le_iff.2 hs]
      · simp only [Nat.succ_ne_zero, false_or, hmax, Nat.add_assoc, Nat.add_comm 1]
    · rw [if_neg (Nat.not_lt.2 hs), if_neg (by omega), Nat.max_eq_left hs]

/-! ## Cells -/

namespace Memory

/-- The fault of an access to a cell : there is no such cell. -/
def cellFault? (address : Nat) : Option Fault :=
  if address < size then none else some (.outOfRange (.cell address))

/-- The fault of going through `count` cells from an address on : the first address among them that
has no cell. -/
def rangeFault? (address count : Nat) : Option Fault :=
  if count = 0 ∨ address + count ≤ size then none
  else some (.outOfRange (.cell (max address size)))

theorem findSome?_cellFault? (address count : Nat) :
    (List.range' address count).findSome? cellFault? = rangeFault? address count :=
  findSome?_range' size (fun k => Fault.outOfRange (.cell k)) address count

theorem rangeFault?_of_some {address count : Nat} {fault : Fault}
    (h : rangeFault? address count = some fault) :
    fault = .outOfRange (.cell (max address size)) := by
  unfold rangeFault? at h
  split at h
  · simp at h
  · exact (Option.some.inj h).symm

theorem rangeFault?_eq_some_iff {address count : Nat} {fault : Fault} :
    rangeFault? address count = some fault ↔
      0 < count ∧ size < address + count ∧ fault = .outOfRange (.cell (max address size)) := by
  unfold rangeFault?
  split
  · exact iff_of_false nofun fun ⟨_, _, _⟩ => by omega
  · rw [Option.some.injEq, eq_comm]
    exact ⟨fun h => ⟨by omega, by omega, h⟩, fun h => h.2.2⟩

theorem read_error_iff {m : Memory} {address : Nat} {fault : Fault} :
    m.read address = .error fault ↔ cellFault? address = some fault := by
  unfold read cellFault?
  split <;> simp

/-- Reading cells gives their bytes, or the fault of the first that is not there. -/
theorem mapM_read (m : Memory) : ∀ addresses : List Nat, addresses.mapM m.read =
    (addresses.findSome? cellFault?).elim
      (.ok (addresses.map fun address => (m.read address).toOption.getD 0)) .error
  | [] => rfl
  | address :: rest => by
    rw [List.mapM_cons, List.findSome?_cons, mapM_read m rest]
    cases hr : m.read address with
    | error fault =>
      rw [read_error_iff.1 hr]
      rfl
    | ok value =>
      rw [show cellFault? address = none from if_pos (lt_of_read hr), List.map_cons, hr]
      cases rest.findSome? cellFault? <;> rfl

theorem readBytes_eq (m : Memory) (address count : Nat) : m.readBytes address count =
    (rangeFault? address count).elim (.ok ((List.range' address count).map fun address =>
      (m.read address).toOption.getD 0)) .error := by
  rw [readBytes, mapM_read, findSome?_cellFault?]

theorem word_error_iff {m : Memory} {address : Nat} {fault : Fault} :
    m.word address = .error fault ↔ rangeFault? address 2 = some fault := by
  have hw : m.word address = .error fault ↔ m.readBytes address 2 = .error fault := by
    rw [readBytes, show List.range' address 2 = [address, address + 1] from rfl]
    simp only [Memory.word, List.mapM_cons, List.mapM_nil, bind, Except.bind, pure, Except.pure]
    cases m.read address with
    | error => simp
    | ok => cases m.read (address + 1) <;> simp
  rw [hw, readBytes_eq]
  cases rangeFault? address 2 <;> simp

theorem writeBytes_error_iff {m : Memory} {address : Nat} {bytes : List UInt8} {fault : Fault} :
    (m.writeBytes address bytes).result = .error fault ↔
      rangeFault? address bytes.length = some fault := by
  simp only [result_writeBytes, rangeFault?, List.length_eq_zero_iff]
  split <;> simp

end Memory

/-! ## Dots -/

namespace Dot

/-- The first pixel outside the picture of a sprite with its corner at column `x` of row `y` : the
one at the right edge in the first row, if the sprite is too far to the right, or the one at the
lower edge in the first column, or the corner, if that is outside. -/
def firstOutside (x y : Nat) : Place :=
  if 56 < x ∧ y < Picture.height then .pixel (max x Picture.width) y
  else .pixel x (max y Picture.height)

/-- The fault of drawing a sprite of so many rows. -/
def spriteFault? (x y height : Nat) : Option Fault :=
  if height = 0 ∨ (x ≤ 56 ∧ y + height ≤ Picture.height) then none
  else some (.outOfRange (firstOutside x y))

theorem spriteFault?_of_some {x y height : Nat} {fault : Fault}
    (h : spriteFault? x y height = some fault) : fault = .outOfRange (firstOutside x y) := by
  unfold spriteFault? at h
  split at h
  · simp at h
  · exact (Option.some.inj h).symm

/-- The first pixel outside by the part of the picture that the corner is in. -/
theorem firstOutside_eq (x y : Nat) : firstOutside x y =
    if 64 ≤ x ∨ 32 ≤ y then .pixel x y else if 57 ≤ x then .pixel 64 y else .pixel x 32 := by
  simp only [firstOutside, Picture.width, Picture.height]
  split <;> split <;> try split
  all_goals
    rw [Place.pixel.injEq]
    omega

theorem spriteFault?_eq_some_iff {x y height : Nat} {fault : Fault} :
    spriteFault? x y height = some fault ↔
      0 < height ∧ (56 < x ∨ 32 < y + height) ∧ fault = .outOfRange (firstOutside x y) := by
  simp only [spriteFault?, Picture.height]
  split
  · exact iff_of_false nofun fun ⟨_, _, _⟩ => by omega
  · rw [Option.some.injEq, eq_comm]
    exact ⟨fun h => ⟨by omega, by omega, h⟩, fun h => h.2.2⟩

theorem findSome?_ofRow (x y : Nat) (row : UInt8) :
    (ofRow x y row).findSome? fault? =
      if y < Picture.height then
        if x ≤ 56 then none else some (.outOfRange (.pixel (max x Picture.width) y))
      else some (.outOfRange (.pixel x y)) := by
  rw [ofRow, List.findSome?_map]
  by_cases hy : y < Picture.height
  · have hcolumn : (fault? ∘ fun j => ⟨x + j, y, row.toNat.testBit (7 - j)⟩) =
        (fun k => if k < Picture.width then none else some (.outOfRange (.pixel k y))) ∘
          (x + ·) := by
      funext j
      simp [fault?, hy]
    rw [hcolumn, ← List.findSome?_map, ← List.range'_eq_map_range,
      findSome?_range' Picture.width (fun k => Fault.outOfRange (.pixel k y)), if_pos hy]
    simp only [Picture.width, show (8 = 0 ∨ x + 8 ≤ 64) ↔ x ≤ 56 by omega]
  · simp [List.range_succ_eq_map, fault?, hy]

theorem ofSprite_cons (x y : Nat) (row : UInt8) (rest : List UInt8) :
    ofSprite x y (row :: rest) = ofRow x y row ++ ofSprite x (y + 1) rest := by
  simp [ofSprite]

/-- What is wrong with a drawing does not depend on what is drawn, but for the number of rows. -/
theorem findSome?_ofSprite (x : Nat) : ∀ (y : Nat) (sprite : List UInt8),
    (ofSprite x y sprite).findSome? fault? = spriteFault? x y sprite.length
  | _, [] => by simp [ofSprite, spriteFault?]
  | y, row :: rest => by
    rw [ofSprite_cons, List.findSome?_append, findSome?_ofRow, findSome?_ofSprite x (y + 1) rest]
    simp only [spriteFault?, List.length_cons, firstOutside]
    rcases Nat.lt_or_ge y Picture.height with hy | hy
    · by_cases hx : x ≤ 56
      · have hmax : max (y + 1) Picture.height = max y Picture.height := by omega
        rw [hmax]
        rcases rest with - | ⟨second, rest⟩
        · simp [hx, hy, Nat.succ_le_iff.2 hy]
        · simp [hx, hy, Nat.not_lt.2 hx, Nat.add_assoc, Nat.add_comm 1]
      · simp [hx, hy, Nat.lt_of_not_le hx]
    · have hout : Picture.height < y + (rest.length + 1) := by omega
      simp [Nat.not_lt.2 hy, hout, Nat.max_eq_left hy]

end Dot

/-! ## Instructions -/

namespace Machine

variable {m : Machine} {i : Instruction} {fault : Fault}

/-- The fault of an instruction in a state of the machine, if it fails there. -/
def fault? (m : Machine) : Instruction → Option Fault
  | .ret => if m.stack.depth = 0 then some .stackUnderflow else none
  | .call _ => if m.stack.depth = m.stack.limit then some (.stackOverflow m.stack.limit) else none
  | .set .. | .add .. | .point _ | .glyph _ => none
  | .draw column row height =>
    (Memory.rangeFault? m.index.toNat height.toNat).or
      (Dot.spriteFault? (m.registers.get column).toNat (m.registers.get row).toNat height.toNat)
  | .decimal _ => Memory.rangeFault? m.index.toNat 3
  | .fill last => Memory.rangeFault? m.index.toNat (last.toNat + 1)

theorem fillRegisters_error_iff {last : UInt8} : (m.fillRegisters last).result = .error fault ↔
    Memory.rangeFault? m.index.toNat (last.toNat + 1) = some fault := by
  have hf : m.fillFault? = Memory.cellFault? ∘ (m.index.toNat + ·) := by
    funext k
    unfold fillFault?
    cases hr : m.memory.read (m.index.toNat + k) with
    | error fault => exact (Memory.read_error_iff.1 hr).symm
    | ok value => exact (if_pos (Memory.lt_of_read hr)).symm
  have hr := m.guarded_fillRegister.result_each m.registers (List.range (last.toNat + 1))
  rw [hf, ← List.findSome?_map, ← List.range'_eq_map_range, Memory.findSome?_cellFault?] at hr
  rw [fillRegisters, Outcome.onState, hr]
  cases Memory.rangeFault? m.index.toNat (last.toNat + 1) <;> simp

theorem draw_error_iff {column row height : UInt8} :
    (m.draw column row height).result = .error fault ↔
      m.fault? (.draw column row height) = some fault := by
  have hr := m.memory.readBytes_eq m.index.toNat height.toNat
  simp only [fault?]
  cases hs : Memory.rangeFault? m.index.toNat height.toNat with
  | some other =>
    rw [hs] at hr
    simp [draw, hr]
  | none =>
    rw [hs, Option.elim_none] at hr
    have hlen : ((List.range' m.index.toNat height.toNat).map fun address =>
        (m.memory.read address).toOption.getD 0).length = height.toNat := by
      rw [List.length_map, List.length_range']
    rw [Option.none_or, ← hlen, ← Dot.findSome?_ofSprite, ← Picture.blit_error_iff m.picture]
    simp only [draw, hr]
    split <;> simp [*]

/-- An instruction fails exactly if it has a fault in the state it is executed in, and with that
fault. -/
theorem execute_error_iff : (m.execute i).result = .error fault ↔ m.fault? i = some fault := by
  cases i with
  | ret =>
    have hpop : (m.execute .ret).result = .error fault ↔ m.stack.pop = .error fault := by
      simp only [execute]
      cases m.stack.pop <;> simp
    rw [hpop, CallStack.pop_error_iff, fault?]
    by_cases h : m.stack.depth = 0 <;> simp [h, eq_comm]
  | call target =>
    have hpush : (m.execute (.call target)).result = .error fault ↔
        m.stack.push (following m.pc) = .error fault := by
      simp only [execute]
      cases m.stack.push (following m.pc) <;> simp
    rw [hpush, CallStack.push_error_iff, fault?]
    by_cases h : m.stack.depth = m.stack.limit <;> simp [h, eq_comm]
  | set | add | point | glyph => simp [execute, fault?]
  | draw column row height => rw [execute, result_thenAdvance, draw_error_iff]
  | decimal register =>
    rw [execute, result_thenAdvance, storeDigits, Outcome.onState, Memory.writeBytes_error_iff]
    rfl
  | fill last =>
    rw [execute, result_thenAdvance, fillRegisters_error_iff]
    rfl

theorem fetch_error_iff : m.fetch = .error fault ↔ Memory.rangeFault? m.pc.toNat 2 = some fault ∨
    ∃ word, m.word = .ok word ∧ Instruction.decode word = .error fault := by
  rw [← Memory.word_error_iff (m := m.memory)]
  change m.word.bind Instruction.decode = _ ↔ m.word = _ ∨ _
  cases m.word <;> simp [Except.bind]

/-- A cycle fails exactly if it finds no instruction or one that fails. -/
theorem step_error_iff : m.step.result = .error fault ↔
    m.fetch = .error fault ∨ ∃ i, m.fetch = .ok i ∧ m.fault? i = some fault := by
  constructor
  · intro h
    rcases of_step_error h with ⟨hf, -⟩ | ⟨i, hf, he, -⟩
    · exact Or.inl hf
    · exact Or.inr ⟨i, hf, execute_error_iff.1 he⟩
  · rintro (hf | ⟨i, hf, hi⟩)
    · rw [step_of_fetch_error hf]
    · rw [step_of_execute_error hf (execute_error_iff.2 hi)]

/-! ## The causes of a fault -/

/-- Why a cycle fails, with the fault that it then ends with. The machine looks for the causes in
this order. -/
inductive Cause (m : Machine) : Fault → Prop where
  /-- The program counter is at the last cell or behind it. -/
  | unreadable (h : 4095 ≤ m.pc.toNat) : Cause m (.outOfRange (.cell (max m.pc.toNat 4096)))
  /-- The word at the program counter is no instruction. -/
  | unknown {word : Opcode} (hw : m.word = .ok word) (h : ∀ i, Instruction.decode word ≠ .ok i) :
    Cause m (.unknownOpcode word)
  /-- A return while no call is open. -/
  | underflow (hf : m.fetch = .ok .ret) (h : m.stack.depth = 0) : Cause m .stackUnderflow
  /-- A call while as many are open as there may be. -/
  | overflow {target : UInt16} (hf : m.fetch = .ok (.call target))
    (h : m.stack.limit ≤ m.stack.depth) : Cause m (.stackOverflow m.stack.limit)
  /-- A drawing whose rows are not all in memory. -/
  | rows {column row height : UInt8} (hf : m.fetch = .ok (.draw column row height))
    (hpos : 1 ≤ height.toNat) (h : 4096 < m.index.toNat + height.toNat) :
    Cause m (.outOfRange (.cell (max m.index.toNat 4096)))
  /-- A drawing whose rows are all in memory, but that reaches out of the picture. -/
  | dots {column row height : UInt8} {x y : Nat} (hf : m.fetch = .ok (.draw column row height))
    (hpos : 1 ≤ height.toNat) (hrows : m.index.toNat + height.toNat ≤ 4096)
    (hx : x = (m.registers.get column).toNat) (hy : y = (m.registers.get row).toNat)
    (h : 56 < x ∨ 32 < y + height.toNat) :
    Cause m (.outOfRange
      (if 64 ≤ x ∨ 32 ≤ y then .pixel x y else if 57 ≤ x then .pixel 64 y else .pixel x 32))
  /-- A storing of digits that reaches out of memory. -/
  | digits {register : UInt8} (hf : m.fetch = .ok (.decimal register))
    (h : 4096 < m.index.toNat + 3) : Cause m (.outOfRange (.cell (max m.index.toNat 4096)))
  /-- A filling of registers that reaches out of memory. -/
  | values {last : UInt8} (hf : m.fetch = .ok (.fill last))
    (h : 4096 < m.index.toNat + last.toNat + 1) :
    Cause m (.outOfRange (.cell (max m.index.toNat 4096)))

theorem cause_of_fetch_error (h : m.fetch = .error fault) : m.Cause fault := by
  rcases fetch_error_iff.1 h with hr | ⟨word, hw, hd⟩
  · obtain ⟨-, hout, rfl⟩ := Memory.rangeFault?_eq_some_iff.1 hr
    exact .unreadable (Nat.le_of_succ_le_succ (Nat.le_of_lt_succ hout))
  · obtain rfl := Instruction.eq_of_decode_error hd
    exact .unknown hw fun i hi => nomatch hd.symm.trans hi

theorem cause_of_fault? (hf : m.fetch = .ok i) (h : m.fault? i = some fault) : m.Cause fault := by
  cases i with
  | ret =>
    obtain ⟨hzero, hfault⟩ := Option.ite_none_right_eq_some.1 h
    exact Option.some.inj hfault ▸ .underflow hf hzero
  | call target =>
    obtain ⟨hfull, hfault⟩ := Option.ite_none_right_eq_some.1 h
    exact Option.some.inj hfault ▸ .overflow hf (Nat.le_of_eq hfull.symm)
  | set | add | point | glyph => simp [fault?] at h
  | draw column row height =>
    rcases Option.or_eq_some_iff.1 h with hr | ⟨hnone, hs⟩
    · obtain ⟨hpos, hout, rfl⟩ := Memory.rangeFault?_eq_some_iff.1 hr
      exact .rows hf hpos hout
    · obtain ⟨hpos, hout, rfl⟩ := Dot.spriteFault?_eq_some_iff.1 hs
      rw [Dot.firstOutside_eq]
      refine .dots hf hpos (Nat.le_of_not_lt fun hlt => ?_) rfl rfl hout
      exact nomatch hnone.symm.trans (Memory.rangeFault?_eq_some_iff.2 ⟨hpos, hlt, rfl⟩)
  | decimal register =>
    obtain ⟨-, hout, rfl⟩ := Memory.rangeFault?_eq_some_iff.1 h
    exact .digits hf hout
  | fill last =>
    obtain ⟨-, hout, rfl⟩ := Memory.rangeFault?_eq_some_iff.1 h
    exact .values hf hout

theorem Cause.step_error (h : m.Cause fault) : m.step.result = .error fault := by
  have hexecute : ∀ {i}, m.fetch = .ok i → m.fault? i = some fault → m.step.result = .error fault :=
    fun hf hi => step_error_iff.2 (Or.inr ⟨_, hf, hi⟩)
  cases h with
  | unreadable h =>
    refine step_error_iff.2 (Or.inl (fetch_error_iff.2 (Or.inl ?_)))
    exact Memory.rangeFault?_eq_some_iff.2
      ⟨Nat.two_pos, Nat.lt_succ_of_le (Nat.succ_le_succ h), rfl⟩
  | @unknown word hw h =>
    refine step_error_iff.2 (Or.inl (fetch_error_iff.2 (Or.inr ⟨word, hw, ?_⟩)))
    cases hd : Instruction.decode word with
    | ok i => exact (h i hd).elim
    | error other => rw [Instruction.eq_of_decode_error hd]
  | underflow hf h => exact hexecute hf (if_pos h)
  | overflow hf h => exact hexecute hf (if_pos (Nat.le_antisymm m.stack.depth_le h))
  | rows hf hpos h =>
    refine hexecute hf (Option.or_eq_some_iff.2 (Or.inl ?_))
    exact Memory.rangeFault?_eq_some_iff.2 ⟨hpos, h, rfl⟩
  | dots hf hpos hrows hx hy h =>
    subst hx hy
    refine hexecute hf (Option.or_eq_some_iff.2 (Or.inr ⟨if_pos (Or.inr hrows), ?_⟩))
    rw [← Dot.firstOutside_eq]
    exact Dot.spriteFault?_eq_some_iff.2 ⟨hpos, h, rfl⟩
  | digits hf h =>
    exact hexecute hf (Memory.rangeFault?_eq_some_iff.2 ⟨Nat.succ_pos _, h, rfl⟩)
  | values hf h =>
    exact hexecute hf (Memory.rangeFault?_eq_some_iff.2 ⟨Nat.succ_pos _, h, rfl⟩)

/-- A cycle fails exactly if there is a cause for it, and ends with the fault of that cause. A
drawing of no rows never fails, wherever it is drawn and wherever the index register points. -/
theorem step_fails_iff (m : Machine) :
    (∀ fault, m.step.result = .error fault ↔ m.Cause fault) ∧ ∀ column row,
      m.fetch = .ok (.draw column row 0) → m.step.result = .ok (.draw column row 0) := by
  refine ⟨fun fault => ⟨fun h => ?_, Cause.step_error⟩, fun column row hf => ?_⟩
  · rcases step_error_iff.1 h with hf | ⟨i, hf, hi⟩
    · exact cause_of_fetch_error hf
    · exact cause_of_fault? hf hi
  · cases he : (m.execute (.draw column row 0)).result with
    | ok => rw [step_of_execute_ok hf he]
    | error fault =>
      have hi := execute_error_iff.1 he
      simp [fault?, Memory.rangeFault?, Dot.spriteFault?] at hi

/-- A drawing of no rows far outside, with the index register behind memory, and then a drawing of
one row that is one column too far to the right. -/
theorem step_fails_iff_columns : ∃ m t : Machine, m.fetch = .ok (.draw 0 1 0) ∧
    m.registers.get 0 = 255 ∧ m.index = 0xFFFF ∧ m.step.result = .ok (.draw 0 1 0) ∧
      t.fetch = .ok (.draw 0 1 1) ∧ t.registers.get 0 = 57 ∧
        t.step.result = .error (.outOfRange (.pixel 64 0)) := by
  have hlen : ([0xD0, 0x10, 0xD0, 0x11] : List UInt8).length ≤ Memory.capacity := by decide
  obtain ⟨m, hm⟩ := exists_boot hlen 16
  obtain ⟨-, hpc, hindex, -⟩ := of_boot hm
  let far : Machine := { m with registers := Registers.fresh.set 0 255, index := 0xFFFF }
  let near : Machine := { m with registers := Registers.fresh.set 0 57, pc := 0x202 }
  have hfar : far.fetch = .ok (.draw 0 1 0) :=
    (fetch_of_image 0 hm rfl (congrArg UInt16.toNat hpc) rfl rfl).trans rfl
  have hnear : near.fetch = .ok (.draw 0 1 1) :=
    (fetch_of_image (t := near) 2 hm rfl rfl rfl rfl).trans rfl
  have hcause : near.Cause (.outOfRange (.pixel 64 0)) := by
    have hx : 56 < ((Registers.fresh.set 0 57).get 0).toNat := by decide
    refine .dots hnear (by decide) ?_ rfl rfl (Or.inl hx)
    rw [show near.index = 0 from hindex]
    decide
  exact ⟨far, near, hfar, rfl, rfl, (step_fails_iff far).2 0 1 hfar, hnear, rfl,
    ((step_fails_iff near).1 _).2 hcause⟩

end Machine

end Chip8
