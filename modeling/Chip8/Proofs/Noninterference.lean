import Chip8.Proofs.Run

/-!
# What the picture can tell

An instruction looks at the picture in one case only : a drawing puts into the flag whether a lit
pixel went dark. Whether it fails does not depend on the picture (`Picture.blit_result_cases`). What
the picture holds can therefore get into the flag and from there, as long as no instruction reads
the flag (`Instruction.ReadsFlag`), no further.

Machines that agree on everything but the picture and the flag (`Machine.AgreesOffPicture`) thus
execute an instruction that does not read the flag with the same result, and agree again afterwards
(`Machine.AgreesOffPicture.execute`), whether it fails or not. Memory is among what they agree on,
so they fetch the same instruction next, also where a program has written over itself. This goes on
for any number of cycles (`Machine.agreesOffPicture_after`).
-/

namespace Chip8

namespace Registers

variable {r s : Registers}

/-- The register with this number is the flag. -/
def NamesFlag (register : UInt8) : Prop := register.toNat % 16 = flag.toNat % 16

instance (register : UInt8) : Decidable (NamesFlag register) :=
  inferInstanceAs (Decidable (_ = _))

/-- Registers that hold the same values, but perhaps for the flag. -/
def SameButFlag (r s : Registers) : Prop :=
  ∀ register, ¬NamesFlag register → r.get register = s.get register

/-- Registers that are the same but for the flag stay so if the same value is put into one of them,
and if any values are put into the flag. -/
theorem SameButFlag.set (h : SameButFlag r s) {register value value' : UInt8}
    (hv : NamesFlag register ∨ value = value') :
    SameButFlag (r.set register value) (s.set register value') := by
  intro other ho
  rw [get_set, get_set]
  split
  · rename_i heq
    exact hv.resolve_left fun hf => ho (heq.trans hf)
  · exact h other ho

theorem sameButFlag_set_flag (r : Registers) (value : UInt8) :
    SameButFlag r (r.set flag value) := fun register hf => by
  rw [get_set, if_neg (show ¬_ = _ from hf)]

theorem SameButFlag.add (h : SameButFlag r s) (register value : UInt8) :
    SameButFlag (r.add register value) (s.add register value) := by
  refine h.set ?_
  by_cases hf : NamesFlag register
  · exact Or.inl hf
  · exact Or.inr (by rw [h register hf])

end Registers

/-- The instruction reads the flag : as a coordinate of a drawing, or to store its digits. An
addition to the flag also reads it, but puts what it has read nowhere else. -/
def Instruction.ReadsFlag : Instruction → Prop
  | draw column row _ => Registers.NamesFlag column ∨ Registers.NamesFlag row
  | decimal register => Registers.NamesFlag register
  | ret | call _ | set .. | add .. | point _ | glyph _ | fill _ => False

/-- A drawing fails in both of two pictures, and with the same fault, or in neither. -/
theorem Picture.blit_result_cases (p q : Picture) (x y : Nat) (sprite : List UInt8) :
    (∃ fault, (p.blit x y sprite).result = .error fault ∧
        (q.blit x y sprite).result = .error fault) ∨
      ∃ collision collision', (p.blit x y sprite).result = .ok collision ∧
        (q.blit x y sprite).result = .ok collision' := by
  cases hp : (p.blit x y sprite).result with
  | error fault =>
    exact Or.inl ⟨fault, rfl, (blit_error_iff q ..).2 ((blit_error_iff p ..).1 hp)⟩
  | ok collision =>
    cases hq : (q.blit x y sprite).result with
    | error fault =>
      have := (blit_error_iff p ..).2 ((blit_error_iff q ..).1 hq)
      simp [hp] at this
    | ok collision' => exact Or.inr ⟨collision, collision', rfl, rfl⟩

namespace Machine

variable {m t : Machine} {i : Instruction}

/-- Machines that agree on everything but the picture and the flag. -/
structure AgreesOffPicture (m t : Machine) : Prop where
  memory : m.memory = t.memory
  registers : Registers.SameButFlag m.registers t.registers
  index : m.index = t.index
  pc : m.pc = t.pc
  stack : m.stack = t.stack
  cycles : m.cycles = t.cycles

/-- Outcomes that have the same result and leave machines which agree on everything but the picture
and the flag. -/
structure SameOffPicture {α : Type} (o p : Outcome Machine α) : Prop where
  result : o.result = p.result
  state : AgreesOffPicture o.state p.state

theorem AgreesOffPicture.exists_eq (h : AgreesOffPicture m t) : ∃ registers picture,
    Registers.SameButFlag m.registers registers ∧ t = { m with registers, picture } := by
  obtain ⟨memory, registers, index, pc, stack, picture, cycles⟩ := t
  obtain ⟨rfl, hr, rfl, rfl, rfl, rfl⟩ := h
  exact ⟨registers, picture, hr, rfl⟩

theorem agreesOffPicture_of_registers {registers registers' : Registers}
    (hr : Registers.SameButFlag registers registers') {memory : Memory} {index pc : UInt16}
    {stack : CallStack} {picture picture' : Picture} {cycles : UInt64} :
    AgreesOffPicture ⟨memory, registers, index, pc, stack, picture, cycles⟩
      ⟨memory, registers', index, pc, stack, picture', cycles⟩ :=
  ⟨rfl, hr, rfl, rfl, rfl, rfl⟩

/-! ## One instruction -/

theorem SameOffPicture.thenAdvance {o p : Outcome Machine Unit} (h : SameOffPicture o p) :
    SameOffPicture (thenAdvance o) (Machine.thenAdvance p) := by
  obtain ⟨state, result⟩ := o
  obtain ⟨state', result'⟩ := p
  obtain ⟨rfl, hs⟩ := h
  cases result with
  | error fault => exact ⟨rfl, hs⟩
  | ok =>
    exact ⟨rfl, hs.memory, hs.registers, hs.index, congrArg following hs.pc, hs.stack, hs.cycles⟩

/-- A drawing whose coordinates are not read from the flag. -/
theorem AgreesOffPicture.draw (h : AgreesOffPicture m t) {column row : UInt8}
    (hc : ¬Registers.NamesFlag column) (hr : ¬Registers.NamesFlag row) (height : UInt8) :
    SameOffPicture (m.draw column row height) (t.draw column row height) := by
  obtain ⟨registers, picture, hs, rfl⟩ := h.exists_eq
  simp only [Machine.draw, ← hs column hc, ← hs row hr]
  cases m.memory.readBytes m.index.toNat height.toNat with
  | error fault => exact ⟨rfl, h⟩
  | ok sprite =>
    rcases m.picture.blit_result_cases picture (m.registers.get column).toNat
      (m.registers.get row).toNat sprite with ⟨fault, hp, hq⟩ | ⟨collision, collision', hp, hq⟩
    · simp only [hp, hq]
      exact ⟨rfl, rfl, hs, rfl, rfl, rfl, rfl⟩
    · simp only [hp, hq]
      exact ⟨rfl, rfl, hs.set (Or.inl rfl), rfl, rfl, rfl, rfl⟩

/-- What is filled comes from memory. -/
theorem AgreesOffPicture.fillRegisters (h : AgreesOffPicture m t) (last : UInt8) :
    SameOffPicture (m.fillRegisters last) (t.fillRegisters last) := by
  obtain ⟨registers, picture, hs, rfl⟩ := h.exists_eq
  have hg := m.guarded_fillRegister
  refine ⟨(hg.result_each _ _).trans (hg.result_each _ _).symm,
    agreesOffPicture_of_registers fun register hf => ?_⟩
  -- Each register is changed by rules that do not depend on the others.
  have hview := fun r => hg.view_each (fun r => r.get register) _
    (fun h => m.get_fillRegister register h) r (List.range (last.toNat + 1))
  have hs' := hview m.registers
  rw [hs register hf] at hs'
  exact hs'.trans (hview registers).symm

/-- An instruction that does not read the flag. -/
theorem AgreesOffPicture.execute (h : AgreesOffPicture m t) (hi : ¬i.ReadsFlag) :
    SameOffPicture (m.execute i) (t.execute i) := by
  cases i with
  | ret =>
    obtain ⟨registers, picture, hs, rfl⟩ := h.exists_eq
    simp only [Machine.execute]
    cases m.stack.pop with
    | error fault => exact ⟨rfl, h⟩
    | ok popped => exact ⟨rfl, agreesOffPicture_of_registers hs⟩
  | call target =>
    obtain ⟨registers, picture, hs, rfl⟩ := h.exists_eq
    simp only [Machine.execute]
    cases m.stack.push (following m.pc) with
    | error fault => exact ⟨rfl, h⟩
    | ok stack => exact ⟨rfl, agreesOffPicture_of_registers hs⟩
  | set register value =>
    obtain ⟨registers, picture, hs, rfl⟩ := h.exists_eq
    exact ⟨rfl, agreesOffPicture_of_registers (hs.set (Or.inr rfl))⟩
  | add register value =>
    obtain ⟨registers, picture, hs, rfl⟩ := h.exists_eq
    exact ⟨rfl, agreesOffPicture_of_registers (hs.add register value)⟩
  | point | glyph =>
    obtain ⟨registers, picture, hs, rfl⟩ := h.exists_eq
    exact ⟨rfl, agreesOffPicture_of_registers hs⟩
  | draw column row height =>
    obtain ⟨hc, hr⟩ := not_or.1 hi
    exact (h.draw hc hr height).thenAdvance
  | decimal register =>
    have hv := h.registers register hi
    obtain ⟨registers, picture, hs, rfl⟩ := h.exists_eq
    refine SameOffPicture.thenAdvance ?_
    simp only [storeDigits, Outcome.onState, hv]
    exact ⟨rfl, agreesOffPicture_of_registers hs⟩
  | fill last => exact (h.fillRegisters last).thenAdvance

/-! ## Cycle after cycle -/

/-- A drawing that succeeds tells in the flag whether a lit pixel went dark. -/
theorem flag_next_of_draw {column row height : UInt8} {sprite : List UInt8} {collision : Bool}
    (hf : m.fetch = .ok (.draw column row height))
    (hread : m.memory.readBytes m.index.toNat height.toNat = .ok sprite)
    (hblit : (m.picture.blit (m.registers.get column).toNat (m.registers.get row).toNat
      sprite).result = .ok collision) :
    m.next.registers.get Registers.flag = if collision then 1 else 0 := by
  have hx : m.execute (.draw column row height) = Machine.thenAdvance (m.draw column row height) :=
    rfl
  have hd : (m.draw column row height).result = .ok () := by simp [Machine.draw, hread, hblit]
  rw [next, step_of_execute_ok hf (by rw [hx, result_thenAdvance, hd]), hx, state_thenAdvance]
  simp [Machine.draw, hread, hblit, Registers.get_set]

theorem AgreesOffPicture.fetch (h : AgreesOffPicture m t) : t.fetch = m.fetch :=
  fetch_congr (by rw [word, word, h.memory, h.pc])

/-- A cycle that does not fetch an instruction which reads the flag. -/
theorem AgreesOffPicture.step (h : AgreesOffPicture m t)
    (hno : ∀ i, m.fetch = .ok i → ¬i.ReadsFlag) : SameOffPicture m.step t.step := by
  cases hf : m.fetch with
  | error fault =>
    rw [step_of_fetch_error hf, step_of_fetch_error (h.fetch.trans hf)]
    exact ⟨rfl, h⟩
  | ok i =>
    have hx := h.execute (hno i hf)
    cases he : (m.execute i).result with
    | error fault =>
      rw [step_of_execute_error hf he,
        step_of_execute_error (h.fetch.trans hf) (hx.result.symm.trans he)]
      exact ⟨rfl, hx.state⟩
    | ok =>
      rw [step_of_execute_ok hf he,
        step_of_execute_ok (h.fetch.trans hf) (hx.result.symm.trans he)]
      exact ⟨rfl, { hx.state with cycles := congrArg (· + 1) hx.state.cycles }⟩

theorem AgreesOffPicture.after (h : AgreesOffPicture m t) : ∀ {n : Nat},
    (∀ k < n, ∀ i, (m.after k).fetch = .ok i → ¬i.ReadsFlag) →
      AgreesOffPicture (m.after n) (t.after n)
  | 0, _ => h
  | n + 1, hno =>
    have ih := h.after fun k hk => hno k (Nat.lt_succ_of_lt hk)
    (ih.step (hno n (Nat.lt_succ_self n))).state

/-- The picture influences nothing but the flag. If two machines agree on everything but the picture
and the flag, and none of the first `n` cycles of one of them fetches an instruction that reads the
flag, then the first `n` cycles of both have the same results, be they instructions or faults, and
after each of them the machines agree again on everything but the picture and the flag. -/
theorem agreesOffPicture_after (h : AgreesOffPicture m t) {n : Nat}
    (hno : ∀ k < n, ∀ i, (m.after k).fetch = .ok i → ¬i.ReadsFlag) :
    (∀ k < n, (m.after k).step.result = (t.after k).step.result) ∧
      ∀ k ≤ n, AgreesOffPicture (m.after k) (t.after k) := by
  have hagrees : ∀ k ≤ n, AgreesOffPicture (m.after k) (t.after k) := fun k hk =>
    h.after fun j hj => hno j (Nat.lt_of_lt_of_le hj hk)
  exact ⟨fun k hk => ((hagrees k (Nat.le_of_lt hk)).step (hno k hk)).result, hagrees⟩

/-- A program that draws the top of a glyph, on a dark picture and on one in which it puts out a
pixel. The flags differ before and after. -/
theorem agreesOffPicture_after_drawOver : ∃ m t, boot [0xD0, 0x01] 16 = .ok m ∧
    m.AgreesOffPicture t ∧ (∀ k < 1, ∀ i, (m.after k).fetch = .ok i → ¬i.ReadsFlag) ∧
      m.step.result = t.step.result ∧ m.next.AgreesOffPicture t.next ∧
        m.next.registers.get Registers.flag = 0 ∧ t.next.registers.get Registers.flag = 1 := by
  have hlen : ([0xD0, 0x01] : List UInt8).length ≤ Memory.capacity := by decide
  obtain ⟨m, hm⟩ := exists_boot hlen 16
  obtain ⟨memory, hload, hfresh⟩ := boot_eq_ok_iff.1 hm
  let t : Machine := { m with
    registers := m.registers.set Registers.flag 7
    picture := (Picture.blank.blit 0 0 [0x80]).state }
  have hagrees : m.AgreesOffPicture t :=
    ⟨rfl, Registers.sameButFlag_set_flag _ _, rfl, rfl, rfl, rfl⟩
  have hf0 : m.fetch = .ok (.draw 0 0 1) :=
    (fetch_of_image 0 hm rfl (by rw [hfresh]; rfl) rfl rfl).trans rfl
  have hno : ∀ k < 1, ∀ i, (m.after k).fetch = .ok i → ¬i.ReadsFlag := fun k hk i hi => by
    obtain rfl := Nat.lt_one_iff.1 hk
    obtain rfl := Except.ok.inj (hf0.symm.trans hi)
    exact not_or.2 ⟨by decide, by decide⟩
  have hread : m.memory.readBytes m.index.toNat 1 = .ok [0xF0] := by
    have h0 : memory.read 0 = .ok 0xF0 :=
      (Memory.read_load hload 0).trans (Memory.read_fresh (by decide))
    simp only [hfresh, UInt16.toNat_zero, Memory.readBytes, List.range'_one, List.mapM_cons, h0]
    rfl
  obtain ⟨hresult, hstates⟩ := agreesOffPicture_after hagrees hno
  have hcorner : (m.registers.get 0).toNat = 0 := by
    rw [hfresh, Registers.get_fresh]
    rfl
  have hdark : (m.picture.blit (m.registers.get 0).toNat (m.registers.get 0).toNat [0xF0]).result =
      .ok false := by
    rw [hcorner, hfresh]
    rfl
  have hlit : (t.picture.blit (t.registers.get 0).toNat (t.registers.get 0).toNat [0xF0]).result =
      .ok true := by
    rw [← hagrees.registers 0 (by decide), hcorner]
    rfl
  exact ⟨m, t, hm, hagrees, hno, hresult 0 Nat.one_pos, hstates 1 (Nat.le_refl 1),
    flag_next_of_draw hf0 hread hdark, flag_next_of_draw (hagrees.fetch.trans hf0) hread hlit⟩

end Machine

end Chip8
