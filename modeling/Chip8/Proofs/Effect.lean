import Mathlib.Order.Bounds.Defs
import Chip8.Proofs.Drawing

/-!
# The instruction table

What each instruction does, told from the state before it (`Machine.Performs`). The operands may be
any that an instruction can be built with : a register number counts modulo 16, so that a filling of
more than 16 registers goes round and a later byte replaces an earlier one.

An instruction that completes does what the table says, and what the table says is what it does
(`Machine.execute_eq_ok_iff`). The parts of the machine are taken one by one before that : registers
that are set (`Registers.eq_set_iff`) or filled (`Machine.fillRegisters_eq_ok_iff`), and the cells
that are read (`Memory.readBytes_eq_ok_iff`) or written (`Memory.writeBytes_eq_ok_iff`).
-/

namespace Chip8

/-! ## Registers -/

namespace Registers

variable {r s : Registers} {register value : UInt8}

theorem eq_set_iff : s = r.set register value ↔ ∀ other : UInt8, s.get other =
    if other.toNat % 16 = register.toNat % 16 then value else r.get other := by
  refine ⟨fun h other => h ▸ r.get_set register value other, fun h => ?_⟩
  exact eq_of_get fun other => (h other).trans (r.get_set register value other).symm

theorem eq_add_iff : s = r.add register value ↔ ∀ other : UInt8, s.get other =
    if other.toNat % 16 = register.toNat % 16 then r.get other + value else r.get other := by
  rw [add, eq_set_iff]
  refine forall_congr' fun other => ?_
  by_cases ho : other.toNat % 16 = register.toNat % 16
  · have hget : r.get register = r.get other := by simp only [get, ho]
    rw [if_pos ho, if_pos ho, hget]
  · rw [if_neg ho, if_neg ho]

/-- Sixteen numbers name all registers. -/
theorem eq_of_get_lt (h : ∀ k : UInt8, k < 16 → r.get k = s.get k) : r = s := by
  refine eq_of_get fun register => ?_
  have hk : (register % 16).toNat = register.toNat % 16 := UInt8.toNat_mod register 16
  have hlt : register % 16 < 16 := by
    rw [UInt8.lt_iff_toNat_lt, hk]
    exact Nat.mod_lt _ (by decide)
  have hget := h (register % 16) hlt
  simpa only [get, hk, Nat.mod_mod] using hget

end Registers

/-! ## Cells -/

namespace Memory

variable {m t : Memory} {address : Nat}

theorem rangeFault?_eq_none_iff {count : Nat} :
    rangeFault? address count = none ↔ count = 0 ∨ address + count ≤ size := by
  unfold rangeFault?
  split <;> simp_all

/-- Cells are read one after the other, and all of them are there. -/
theorem readBytes_eq_ok_iff {count : Nat} {bytes : List UInt8} :
    m.readBytes address count = .ok bytes ↔ bytes.length = count ∧
      ∀ k (hk : k < bytes.length), m.read (address + k) = .ok bytes[k] := by
  rw [readBytes_eq]
  constructor
  · intro h
    cases hf : rangeFault? address count with
    | some fault => simp [hf] at h
    | none =>
      have hin := rangeFault?_eq_none_iff.1 hf
      rw [hf, Option.elim_none, Except.ok.injEq] at h
      subst h
      refine ⟨by simp, fun k hk => ?_⟩
      rw [List.length_map, List.length_range'] at hk
      simp [read_of_lt m (show address + k < size by omega), Except.toOption]
  · rintro ⟨rfl, hbytes⟩
    have hin : bytes.length = 0 ∨ address + bytes.length ≤ size := by
      rcases Nat.eq_zero_or_pos bytes.length with h0 | hpos
      · exact Or.inl h0
      · have := lt_of_read (hbytes (bytes.length - 1) (by omega))
        omega
    rw [rangeFault?_eq_none_iff.2 hin, Option.elim_none]
    refine congrArg Except.ok (List.ext_getElem (by simp) fun k hk hk' => ?_)
    simp [hbytes k hk', Except.toOption]

/-- The cells after three bytes are written, as far as there are cells for them. -/
theorem read_writeBytes_three (m : Memory) (address : Nat) (a b c : UInt8) {other : Nat}
    (h : other < size) : (m.writeBytes address [a, b, c]).state.read other =
      if other = address then .ok a
      else if other = address + 1 then .ok b
      else if other = address + 2 then .ok c
      else m.read other := by
  rw [read_writeBytes]
  rcases Nat.lt_or_ge other address with hlt | hge
  · rw [if_neg (by omega), if_neg (by omega), if_neg (by omega), if_neg (by omega)]
  · obtain ⟨k, rfl⟩ := Nat.exists_eq_add_of_le hge
    rw [if_pos ⟨hge, h⟩, Nat.add_sub_cancel_left]
    match k with
    | 0 | 1 | 2 => simp
    | k + 3 => simp

theorem writeBytes_eq_ok_iff {a b c : UInt8} :
    m.writeBytes address [a, b, c] = ⟨t, .ok ()⟩ ↔ ∀ other, t.read other =
      if other = address then .ok a
      else if other = address + 1 then .ok b
      else if other = address + 2 then .ok c
      else m.read other := by
  have hresult : (m.writeBytes address [a, b, c]).result = .ok () ↔ address + 3 ≤ size := by
    rw [result_writeBytes]
    split <;> simp_all
  constructor
  · intro h other
    have hin := hresult.1 (congrArg Outcome.result h)
    rcases Nat.lt_or_ge other size with ho | ho
    · have hread := m.read_writeBytes_three address a b c ho
      rwa [h] at hread
    · rw [if_neg (by omega), if_neg (by omega), if_neg (by omega), read_of_le t ho, read_of_le m ho]
  · intro h
    have hlast := h (address + 2)
    rw [if_neg (by omega), if_neg (by omega), if_pos rfl] at hlast
    have hstate : (m.writeBytes address [a, b, c]).state = t := by
      refine eq_of_read fun other => ?_
      rcases Nat.lt_or_ge other size with ho | ho
      · rw [m.read_writeBytes_three address a b c ho, h]
      · rw [read_of_le _ ho, read_of_le _ ho]
    rw [← hstate, ← hresult.2 (lt_of_read hlast)]

end Memory

namespace Machine

variable {m t : Machine} {i : Instruction}

/-! ## Filling registers -/

/-- Of several values that are put in one place, the last one stays. -/
theorem foldl_range_overwrite {ν : Type} (hits : Nat → Bool) (value : Nat → ν) (v : ν) (n : Nat) :
    (∀ g, IsGreatest {o | o < n ∧ hits o = true} g →
      (List.range n).foldl (fun v o => if hits o then value o else v) v = value g) ∧
    ((∀ o < n, hits o = false) →
      (List.range n).foldl (fun v o => if hits o then value o else v) v = v) := by
  induction n with
  | zero => exact ⟨fun g hg => absurd hg.1.1 (Nat.not_lt_zero g), fun _ => rfl⟩
  | succ n ih =>
    rw [List.range_succ, List.foldl_append, List.foldl_cons, List.foldl_nil]
    cases hn : hits n with
    | true =>
      refine ⟨fun g hg => ?_, fun h => nomatch hn.symm.trans (h n (Nat.lt_succ_self n))⟩
      have hle : n ≤ g := hg.2 ⟨Nat.lt_succ_self n, hn⟩
      have hlt : g < n + 1 := hg.1.1
      obtain rfl : g = n := by omega
      rfl
    | false =>
      refine ⟨fun g hg => ih.1 g ⟨⟨?_, hg.1.2⟩, fun o ho => hg.2 ⟨Nat.lt_succ_of_lt ho.1, ho.2⟩⟩,
        fun h => ih.2 fun o ho => h o (Nat.lt_succ_of_lt ho)⟩
      have hne : g ≠ n := by
        rintro rfl
        exact nomatch hn.symm.trans hg.1.2
      have hlt : g < n + 1 := hg.1.1
      omega

theorem isNone_fillFault? (m : Machine) (k : Nat) :
    (m.fillFault? k).isNone = decide (m.index.toNat + k < Memory.size) := by
  unfold fillFault?
  rcases Nat.lt_or_ge (m.index.toNat + k) Memory.size with h | h
  · simp [Memory.read_of_lt _ h, h]
  · simp [Memory.read_of_le _ h, Nat.not_lt.2 h]

/-- The registers that are filled are those whose cells are in memory. -/
theorem sound_fillFault? (m : Machine) (n : Nat) :
    Outcome.sound m.fillFault? (List.range n) =
      List.range (min n (Memory.size - m.index.toNat)) := by
  have hbelow : ∀ k ∈ List.range (min n (Memory.size - m.index.toNat)),
      (m.fillFault? k).isNone = true := by
    intro k hk
    rw [List.mem_range] at hk
    rw [isNone_fillFault?, decide_eq_true_eq]
    omega
  obtain ⟨d, hd⟩ := Nat.exists_eq_add_of_le
    (Nat.min_le_left n (Memory.size - m.index.toNat))
  rw [Outcome.sound]
  conv_lhs => rw [hd]
  rw [List.range_add, List.takeWhile_append_of_pos hbelow]
  rcases d with - | d
  · simp
  · rw [List.range_succ_eq_map, List.map_cons, List.takeWhile_cons_of_neg, List.append_nil]
    rw [isNone_fillFault?, decide_eq_true_eq]
    omega

theorem get_fillRegister_lt {k : UInt8} (hk : k < 16) {r s : Registers} {n : Nat}
    (h : m.fillRegister r n = .ok s) : s.get k =
      if decide (n % 16 = k.toNat) then (m.memory.read (m.index.toNat + n)).toOption.getD 0
      else r.get k := by
  have hn : (UInt8.ofNat n).toNat % 16 = n % 16 := by
    rw [UInt8.toNat_ofNat']
    omega
  have hlow : k.toNat % 16 = k.toNat := Nat.mod_eq_of_lt (UInt8.lt_iff_toNat_lt.1 hk)
  rw [m.get_fillRegister k h, hn, hlow]
  simp only [decide_eq_true_eq, eq_comm (a := k.toNat)]

/-- What a filling leaves in a register, whether it completes or not : the byte of the last cell for
it that is in memory, or what it held if there is none. -/
theorem registers_fillRegisters (m : Machine) (last : UInt8) {k : UInt8} (hk : k < 16) :
    (∀ offset,
      IsGreatest {n | n ≤ last.toNat ∧ m.index.toNat + n < Memory.size ∧ n % 16 = k.toNat} offset →
      m.memory.read (m.index.toNat + offset) =
        .ok ((m.fillRegisters last).state.registers.get k)) ∧
    ((∀ n ≤ last.toNat, m.index.toNat + n < Memory.size → n % 16 ≠ k.toNat) →
      (m.fillRegisters last).state.registers.get k = m.registers.get k) := by
  have hview := m.guarded_fillRegister.view_each (fun r => r.get k)
    (fun n value => if decide (n % 16 = k.toNat) then
      (m.memory.read (m.index.toNat + n)).toOption.getD 0 else value)
    (get_fillRegister_lt hk) m.registers (List.range (last.toNat + 1))
  rw [sound_fillFault?] at hview
  obtain ⟨hlast, hnone⟩ := foldl_range_overwrite (fun n => decide (n % 16 = k.toNat))
    (fun n => (m.memory.read (m.index.toNat + n)).toOption.getD 0) (m.registers.get k)
    (min (last.toNat + 1) (Memory.size - m.index.toNat))
  refine ⟨fun offset ho => ?_, fun h => ?_⟩
  · have hgreatest : IsGreatest {n | n < min (last.toNat + 1) (Memory.size - m.index.toNat) ∧
        decide (n % 16 = k.toNat) = true} offset := by
      convert ho using 2
      ext n
      rw [decide_eq_true_eq]
      omega
    rw [fillRegisters, Outcome.onState]
    simp only [hview, hlast offset hgreatest]
    rw [Memory.read_of_lt _ ho.1.2.1]
    rfl
  · rw [fillRegisters, Outcome.onState]
    refine hview.trans (hnone fun n hn => ?_)
    rw [decide_eq_false_iff_not]
    exact h n (by omega) (by omega)

theorem fillRegisters_ok_iff {last : UInt8} : (m.fillRegisters last).result = .ok () ↔
    m.index.toNat + last.toNat < Memory.size := by
  have herror : ∀ fault, (m.fillRegisters last).result = .error fault ↔
      Memory.rangeFault? m.index.toNat (last.toNat + 1) = some fault :=
    fun _ => fillRegisters_error_iff
  have hnone : Memory.rangeFault? m.index.toNat (last.toNat + 1) = none ↔
      last.toNat + 1 = 0 ∨ m.index.toNat + (last.toNat + 1) ≤ Memory.size :=
    Memory.rangeFault?_eq_none_iff
  cases hr : (m.fillRegisters last).result with
  | ok =>
    refine iff_of_true rfl ?_
    have hin := hnone.1 (Option.eq_none_iff_forall_ne_some.2 fun fault hf =>
      nomatch hr.symm.trans ((herror fault).2 hf))
    omega
  | error fault =>
    refine iff_of_false nofun fun hin => ?_
    exact nomatch (hnone.2 (Or.inr hin)).symm.trans ((herror fault).1 hr)

theorem exists_greatest {last k : Nat} (h : k ≤ last) (hk : k < 16) :
    ∃ offset, IsGreatest {n | n ≤ last ∧ n % 16 = k} offset :=
  ⟨last - (last - k) % 16, ⟨by omega, by omega⟩, fun n hn => by
    obtain ⟨hle, hmod⟩ := hn
    omega⟩

/-- Registers are filled with the bytes of memory, and of several bytes for one register the last
one counts. -/
theorem fillRegisters_eq_ok_iff {last : UInt8} {registers : Registers} :
    m.fillRegisters last = ⟨{ m with registers }, .ok ()⟩ ↔
      ∀ k : UInt8, k < 16 →
        (k ≤ last → ∃ offset, IsGreatest {n | n ≤ last.toNat ∧ n % 16 = k.toNat} offset ∧
          m.memory.read (m.index.toNat + offset) = .ok (registers.get k)) ∧
        (last < k → registers.get k = m.registers.get k) := by
  simp only [UInt8.lt_iff_toNat_lt, UInt8.le_iff_toNat_le]
  -- On either side all cells of the filling are in memory.
  have hbyte : m.index.toNat + last.toNat < Memory.size → ∀ (k : UInt8) (offset : Nat), k < 16 →
      IsGreatest {n | n ≤ last.toNat ∧ n % 16 = k.toNat} offset →
        m.memory.read (m.index.toNat + offset) =
          .ok ((m.fillRegisters last).state.registers.get k) := by
    intro hin k offset hk ho
    refine (m.registers_fillRegisters last hk).1 offset ?_
    convert ho using 2
    ext n
    omega
  have hkept : ∀ k : UInt8, k < 16 → last.toNat < k.toNat →
      (m.fillRegisters last).state.registers.get k = m.registers.get k := by
    intro k hk hlt
    exact (m.registers_fillRegisters last hk).2 fun n hn _ => by omega
  constructor
  · intro h k hk
    have hin := fillRegisters_ok_iff.1 (congrArg Outcome.result h)
    rw [h] at hbyte hkept
    refine ⟨fun hle => ?_, hkept k hk⟩
    obtain ⟨offset, ho⟩ := exists_greatest hle hk
    exact ⟨offset, ho, hbyte hin k offset hk ho⟩
  · intro h
    have hin : m.index.toNat + last.toNat < Memory.size := by
      have hmod : (last % 16).toNat = last.toNat % 16 := UInt8.toNat_mod last 16
      obtain ⟨offset, ho, hread⟩ := (h (last % 16) (hmod ▸ Nat.mod_lt _ (by decide))).1
        (hmod ▸ Nat.mod_le _ _)
      have hle : last.toNat ≤ offset := ho.2 ⟨Nat.le_refl _, hmod.symm⟩
      have := Memory.lt_of_read hread
      omega
    have hregisters : (m.fillRegisters last).state.registers = registers := by
      refine Registers.eq_of_get_lt fun k hk => ?_
      rcases Nat.lt_or_ge last.toNat k.toNat with hlt | hge
      · rw [hkept k hk hlt, (h k hk).2 hlt]
      · obtain ⟨offset, ho, hread⟩ := (h k hk).1 hge
        exact Except.ok.inj ((hbyte hin k offset hk ho).symm.trans hread)
    have hstate : (m.fillRegisters last).state = { m with registers } := by
      rw [← hregisters]
      rfl
    rw [← hstate, ← fillRegisters_ok_iff.2 hin]

/-! ## The table -/

/-- What an instruction does. -/
inductive Performs (m : Machine) : Instruction → Machine → Prop where
  /-- A return goes to the newest address and takes it from the stack. -/
  | ret {address : UInt16} {stack : CallStack} (hlimit : stack.limit = m.stack.limit)
    (htop : m.stack.addresses = stack.addresses.push address) :
    Performs m .ret { m with stack, pc := address }
  /-- A call puts the address of the following instruction on the stack. -/
  | call {target : UInt16} {stack : CallStack} (hlimit : stack.limit = m.stack.limit)
    (htop : stack.addresses = m.stack.addresses.push (m.pc + 2)) :
    Performs m (.call target) { m with stack, pc := target }
  /-- One register gets a value. -/
  | set {register value : UInt8} {registers : Registers}
    (hregisters : ∀ k : UInt8, registers.get k =
      if k.toNat % 16 = register.toNat % 16 then value else m.registers.get k) :
    Performs m (.set register value) { m with registers, pc := m.pc + 2 }
  /-- A value is added to one register, modulo 256. -/
  | add {register value : UInt8} {registers : Registers}
    (hregisters : ∀ k : UInt8, registers.get k =
      if k.toNat % 16 = register.toNat % 16 then m.registers.get k + value
      else m.registers.get k) :
    Performs m (.add register value) { m with registers, pc := m.pc + 2 }
  | point {address : UInt16} : Performs m (.point address) { m with index := address, pc := m.pc + 2 }
  | glyph {digit : UInt8} {index : UInt16} (hindex : index.toNat = 5 * (digit.toNat % 16)) :
    Performs m (.glyph digit) { m with index, pc := m.pc + 2 }
  /-- The rows at the index register are drawn at the values of two registers, and the last register
  tells of a collision. -/
  | draw {column row height : UInt8} {x y : Nat} {rows : List UInt8} {picture : Picture}
    {collision : Bool} {registers : Registers}
    (hx : x = (m.registers.get column).toNat) (hy : y = (m.registers.get row).toNat)
    (hheight : rows.length = height.toNat)
    (hrows : ∀ k (hk : k < rows.length), m.memory.read (m.index.toNat + k) = .ok rows[k])
    (hdrawn : m.picture.Drawn x y rows picture collision)
    (hregisters : ∀ k : UInt8, registers.get k =
      if k.toNat % 16 = 15 then (if collision then 1 else 0) else m.registers.get k) :
    Performs m (.draw column row height) { m with picture, registers, pc := m.pc + 2 }
  /-- The decimal digits of a register go to the three cells at the index register. -/
  | decimal {register a b c : UInt8} {memory : Memory} (ha : a ≤ 9) (hb : b ≤ 9) (hc : c ≤ 9)
    (hvalue : 100 * a.toNat + 10 * b.toNat + c.toNat = (m.registers.get register).toNat)
    (hmemory : ∀ address, memory.read address =
      if address = m.index.toNat then .ok a
      else if address = m.index.toNat + 1 then .ok b
      else if address = m.index.toNat + 2 then .ok c
      else m.memory.read address) :
    Performs m (.decimal register) { m with memory, pc := m.pc + 2 }
  /-- Registers are filled from the cells at the index register. Of several bytes for one register
  the last one counts. -/
  | fill {last : UInt8} {registers : Registers}
    (hregisters : ∀ k : UInt8, k < 16 →
      (k ≤ last → ∃ offset, IsGreatest {n | n ≤ last.toNat ∧ n % 16 = k.toNat} offset ∧
        m.memory.read (m.index.toNat + offset) = .ok (registers.get k)) ∧
      (last < k → registers.get k = m.registers.get k)) :
    Performs m (.fill last) { m with registers, pc := m.pc + 2 }

/-- The decimal digits of a byte are the only ones that make up its value. -/
theorem decimalDigits_eq_iff {value a b c : UInt8} : decimalDigits value = [a, b, c] ↔
    (a ≤ 9 ∧ b ≤ 9 ∧ c ≤ 9) ∧ 100 * a.toNat + 10 * b.toNat + c.toNat = value.toNat := by
  simp only [decimalDigits, List.cons.injEq, and_true, ← UInt8.toNat_inj, UInt8.toNat_div,
    UInt8.toNat_mod, UInt8.le_iff_toNat_le, UInt8.reduceToNat]
  have := value.toNat_lt
  omega

theorem thenAdvance_eq_ok_iff {o : Outcome Machine Unit} : thenAdvance o = ⟨t, .ok ()⟩ ↔
    ∃ u, o = ⟨u, .ok ()⟩ ∧ t = { u with pc := following u.pc } := by
  refine ⟨fun h => ⟨o.state, ?_, thenAdvance_ok h⟩, ?_⟩
  · have hr : o.result = .ok () := (result_thenAdvance o).symm.trans (congrArg Outcome.result h)
    rw [← hr]
  · rintro ⟨u, rfl, rfl⟩
    rfl

/-- A drawing completes if its rows can be read and then drawn. -/
theorem draw_eq_ok_iff {column row height : UInt8} : m.draw column row height = ⟨t, .ok ()⟩ ↔
    ∃ rows picture collision, m.memory.readBytes m.index.toNat height.toNat = .ok rows ∧
      m.picture.blit (m.registers.get column).toNat (m.registers.get row).toNat rows =
        ⟨picture, .ok collision⟩ ∧
      t = { m with
        picture
        registers := m.registers.set Registers.flag (if collision then 1 else 0) } := by
  constructor
  · intro h
    unfold draw at h
    split at h
    case h_1 => simp at h
    case h_2 rows hrows =>
      simp only at h
      split at h
      case h_1 => simp at h
      case h_2 collision hr =>
        obtain rfl := ((Outcome.mk.injEq ..).mp h).1
        exact ⟨rows, _, collision, hrows, by rw [← hr], rfl⟩
  · rintro ⟨rows, picture, collision, hrows, hblit, rfl⟩
    simp only [draw, hrows, hblit]

theorem storeDigits_eq_ok_iff {register : UInt8} : m.storeDigits register = ⟨t, .ok ()⟩ ↔
    ∃ memory, m.memory.writeBytes m.index.toNat (decimalDigits (m.registers.get register)) =
      ⟨memory, .ok ()⟩ ∧ t = { m with memory } := by
  unfold storeDigits Outcome.onState
  constructor
  · intro h
    obtain ⟨ht, hr⟩ := (Outcome.mk.injEq ..).mp h
    exact ⟨_, by rw [← hr], ht.symm⟩
  · rintro ⟨memory, hw, rfl⟩
    rw [hw]

/-! ### An instruction does what the table says -/

theorem performs_of_execute (h : m.execute i = ⟨t, .ok ()⟩) : m.Performs i t := by
  cases i with
  | ret =>
    simp only [execute] at h
    split at h
    case h_1 => simp at h
    case h_2 address stack hs =>
      obtain rfl := ((Outcome.mk.injEq ..).mp h).1
      obtain ⟨hlimit, htop⟩ := CallStack.pop_eq_ok_iff.1 hs
      exact .ret hlimit htop
  | call target =>
    simp only [execute] at h
    split at h
    case h_1 => simp at h
    case h_2 stack hs =>
      obtain rfl := ((Outcome.mk.injEq ..).mp h).1
      obtain ⟨hlimit, htop⟩ := CallStack.push_eq_ok_iff.1 hs
      exact .call hlimit htop
  | set register value =>
    rw [execute] at h
    obtain ⟨_, ⟨⟩, rfl⟩ := thenAdvance_eq_ok_iff.1 h
    exact .set (Registers.eq_set_iff.1 rfl)
  | add register value =>
    rw [execute] at h
    obtain ⟨_, ⟨⟩, rfl⟩ := thenAdvance_eq_ok_iff.1 h
    exact .add (Registers.eq_add_iff.1 rfl)
  | point address =>
    rw [execute] at h
    obtain ⟨_, ⟨⟩, rfl⟩ := thenAdvance_eq_ok_iff.1 h
    exact .point
  | glyph digit =>
    rw [execute] at h
    obtain ⟨_, ⟨⟩, rfl⟩ := thenAdvance_eq_ok_iff.1 h
    exact .glyph ((Font.toNat_glyph digit).trans (Nat.mul_comm _ _))
  | draw column row height =>
    obtain ⟨_, hd, rfl⟩ := thenAdvance_eq_ok_iff.1 h
    obtain ⟨rows, picture, collision, hread, hblit, rfl⟩ := draw_eq_ok_iff.1 hd
    obtain ⟨hheight, hrows⟩ := Memory.readBytes_eq_ok_iff.1 hread
    exact .draw rfl rfl hheight hrows (Picture.blit_eq_ok_iff.1 hblit) (Registers.eq_set_iff.1 rfl)
  | decimal register =>
    obtain ⟨_, hs, rfl⟩ := thenAdvance_eq_ok_iff.1 h
    obtain ⟨memory, hw, rfl⟩ := storeDigits_eq_ok_iff.1 hs
    obtain ⟨⟨ha, hb, hc⟩, hvalue⟩ := decimalDigits_eq_iff.1 (rfl : decimalDigits _ = [_, _, _])
    exact .decimal ha hb hc hvalue (Memory.writeBytes_eq_ok_iff.1 hw)
  | fill last =>
    obtain ⟨_, hf, rfl⟩ := thenAdvance_eq_ok_iff.1 h
    obtain rfl := congrArg Outcome.state hf
    exact .fill (fillRegisters_eq_ok_iff.1 hf)

theorem Performs.execute_eq (h : m.Performs i t) : m.execute i = ⟨t, .ok ()⟩ := by
  cases h with
  | ret hlimit htop => simp only [execute, CallStack.pop_eq_ok_iff.2 ⟨hlimit, htop⟩]
  | call hlimit htop =>
    simp only [execute, following, CallStack.push_eq_ok_iff.2 ⟨hlimit, htop⟩]
  | set hregisters =>
    rw [Registers.eq_set_iff.2 hregisters]
    rfl
  | add hregisters =>
    rw [Registers.eq_add_iff.2 hregisters]
    rfl
  | point => rfl
  | @glyph digit index hindex =>
    obtain rfl : index = Font.glyph digit :=
      UInt16.toNat_inj.1 (by rw [hindex, Font.toNat_glyph, Nat.mul_comm])
    rfl
  | @draw column row height x y rows picture collision registers hx hy hheight hrows hdrawn
      hregisters =>
    subst hx hy
    obtain rfl : registers = m.registers.set Registers.flag (if collision then 1 else 0) :=
      Registers.eq_set_iff.2 hregisters
    exact thenAdvance_eq_ok_iff.2 ⟨_, draw_eq_ok_iff.2 ⟨rows, picture, collision,
      Memory.readBytes_eq_ok_iff.2 ⟨hheight, hrows⟩, Picture.blit_eq_ok_iff.2 hdrawn, rfl⟩, rfl⟩
  | decimal ha hb hc hvalue hmemory =>
    have hdigits := decimalDigits_eq_iff.2 ⟨⟨ha, hb, hc⟩, hvalue⟩
    refine thenAdvance_eq_ok_iff.2 ⟨_, storeDigits_eq_ok_iff.2 ⟨_, ?_, rfl⟩, rfl⟩
    exact hdigits ▸ Memory.writeBytes_eq_ok_iff.2 hmemory
  | fill hregisters =>
    exact thenAdvance_eq_ok_iff.2 ⟨_, fillRegisters_eq_ok_iff.2 hregisters, rfl⟩

/-- An instruction completes with a state exactly if the table says that it does that. Whatever the
operands are, the state is the one before it but for what the table names, and no instruction
touches the cycle count. -/
theorem execute_eq_ok_iff (m t : Machine) (i : Instruction) :
    m.execute i = ⟨t, .ok ()⟩ ↔ m.Performs i t :=
  ⟨performs_of_execute, Performs.execute_eq⟩

end Machine

end Chip8
