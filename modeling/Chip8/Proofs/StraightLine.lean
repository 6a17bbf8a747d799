import Chip8.Proofs.Assembly
import Chip8.Proofs.Bounds
import Chip8.Proofs.Session
import Mathlib.Algebra.GroupWithZero.Nat
import Mathlib.Data.List.DropRight

/-!
# Straight-line programs

An instruction that sets a register, adds to one or points the index register never fails and goes
on to the instruction behind it (`Instruction.Straight`, `Machine.next_of_straight`). So a program
of such instructions is executed from its first to its last, each of them once
(`Machine.straight_run`), and what it leaves can be read off its text : a register holds the operand
of the last instruction that sets it and the operands of those behind it that add to it
(`Instruction.left`), cut to a byte, and the index register points where it was pointed last.

Behind its last instruction the machine finds zeros, which are no instruction, or the end of memory
if the program fills it (`Machine.fetch_behind`). This is how its run ends
(`Machine.boot_straight`).
-/

namespace Chip8

namespace Instruction

/-- The instructions that give a register a value, add to one, or point the index register. -/
def Straight : Instruction → Prop
  | set .. | add .. | point _ | glyph _ => True
  | ret | call _ | draw .. | decimal _ | fill _ => False

instance : DecidablePred Straight
  | set .. | add .. | point _ | glyph _ => .isTrue trivial
  | ret | call _ | draw .. | decimal _ | fill _ => .isFalse id

/-- The value that an instruction gives a register, if it sets this one. -/
def setTo? (register : UInt8) : Instruction → Option UInt8
  | set other value => if other = register then some value else none
  | _ => none

/-- What an instruction adds to a register. -/
def addend (register : UInt8) : Instruction → Nat
  | add other value => if other = register then value.toNat else 0
  | _ => 0

/-- What a program leaves in a register that held `value`, not yet cut to a byte : the operand of
the last instruction that sets the register, or else `value`, and the operands of all instructions
behind it that add to the register. -/
def left (register value : UInt8) (program : List Instruction) : Nat :=
  ((program.filterMap (setTo? register)).getLast?.getD value).toNat +
    ((program.rtakeWhile fun i => (i.setTo? register).isNone).map (addend register)).sum

/-- The address that an instruction points the index register at : its own, or that of the glyph of
a digit, which has five rows. -/
def address? : Instruction → Option Nat
  | point address => some address.toNat
  | glyph digit => some (5 * digit.toNat)
  | _ => none

/-- Where a program leaves the index register that pointed at `index`. -/
def pointed (index : Nat) (program : List Instruction) : Nat :=
  (program.filterMap address?).getLast?.getD index

variable {i : Instruction} {program : List Instruction} {register value : UInt8}

theorem left_nil : left register value [] = value.toNat := rfl

/-- A last instruction that sets the register decides what is left in it. -/
theorem left_concat_of_set {operand : UInt8} (hi : i.setTo? register = some operand) :
    left register value (program ++ [i]) = operand.toNat := by
  simp [left, List.filterMap_append, hi]

/-- Any other last instruction adds to what is left in the register. -/
theorem left_concat_of_not_set (hi : i.setTo? register = none) :
    left register value (program ++ [i]) = left register value program + i.addend register := by
  simp [left, List.filterMap_append, hi, Nat.add_assoc]

theorem pointed_concat (index : Nat) :
    pointed index (program ++ [i]) = i.address?.getD (pointed index program) := by
  cases hi : i.address? <;> simp [pointed, List.filterMap_append, hi]

theorem address?_eq (hi : i.Encodable) : i.address? = i.pointed?.map UInt16.toNat := by
  cases i with
  | glyph digit =>
    have hdigit : digit.toNat < 16 := hi
    simp only [address?, pointed?, Option.map_some, Font.toNat_glyph, Option.some.injEq]
    omega
  | ret | call | set | add | point | draw | decimal | fill => rfl

end Instruction

namespace Machine

open Instruction

variable {m t : Machine} {i : Instruction} {program : List Instruction} {limit : Nat}

/-- What a straight instruction makes of the registers. -/
def amend (registers : Registers) : Instruction → Registers
  | .set register value => registers.set register value
  | .add register value => registers.add register value
  | _ => registers

/-- A straight instruction completes and changes nothing but registers and the index register. -/
theorem next_of_straight (hi : i.Straight) (hf : m.fetch = .ok i) : m.Executes 0 i ∧
    m.next = { m with
      registers := amend m.registers i, index := i.pointed?.getD m.index,
      pc := following m.pc, cycles := m.cycles + 1 } := by
  cases i with
  | set | add | point | glyph =>
    have hstep := step_of_execute_ok hf rfl
    rw [Executes, next, after_zero, hstep]
    exact ⟨rfl, rfl⟩
  | ret | call | draw | decimal | fill => exact hi.elim

/-- What an instruction makes of a register : what it sets it to, or what it adds to it. -/
theorem get_amend (registers : Registers) (hfit : i.Encodable) {register : UInt8}
    (hr : register.toNat < 16) : (amend registers i).get register =
      (i.setTo? register).getD (registers.get register + .ofNat (i.addend register)) := by
  cases i with
  | set other value =>
    have hother : other.toNat < 16 := hfit
    simp only [amend, setTo?, addend, Registers.get_set, Nat.mod_eq_of_lt hr,
      Nat.mod_eq_of_lt hother, UInt8.toNat_inj, eq_comm (a := register)]
    split <;> simp
  | add other value =>
    have hother : other.toNat < 16 := hfit
    simp only [amend, setTo?, addend, Registers.add, Registers.get_set, Nat.mod_eq_of_lt hr,
      Nat.mod_eq_of_lt hother, UInt8.toNat_inj, eq_comm (a := register)]
    split
    · rename_i h
      subst h
      simp
    · simp
  | ret | call | point | draw | glyph | decimal | fill => simp [amend, setTo?, addend]

/-- The machine `t` is what going straight through a list of instructions has made of `m`. -/
structure Passed (m : Machine) (program : List Instruction) (t : Machine) : Prop where
  pc_eq : t.pc.toNat = m.pc.toNat + 2 * program.length
  get_eq : ∀ register : UInt8, register.toNat < 16 → (t.registers.get register).toNat =
    left register (m.registers.get register) program % 256
  index_eq : t.index.toNat = pointed m.index.toNat program
  memory_eq : t.memory = m.memory
  picture_eq : t.picture = m.picture
  stack_eq : t.stack = m.stack

theorem Passed.nil (m : Machine) : m.Passed [] m where
  pc_eq := rfl
  get_eq register _ := by
    rw [left_nil, Nat.mod_eq_of_lt (UInt8.toNat_lt _)]
  index_eq := rfl
  memory_eq := rfl
  picture_eq := rfl
  stack_eq := rfl

/-- One more straight instruction that is fetched is executed and passed. -/
theorem Passed.concat (h : m.Passed program t) (hi : i.Straight) (hf : t.fetch = .ok i) :
    m.Passed (program ++ [i]) t.next := by
  have hfit := encodable_of_fetch hf
  obtain ⟨-, hn⟩ := next_of_straight hi hf
  constructor
  · rw [hn, toNat_following (pc_of_fetch hf), h.pc_eq, List.length_append]
    rfl
  · intro register hr
    have hold := h.get_eq register hr
    rw [hn, get_amend _ hfit hr]
    cases hs : i.setTo? register with
    | some operand =>
      rw [left_concat_of_set hs]
      exact (Nat.mod_eq_of_lt (UInt8.toNat_lt _)).symm
    | none =>
      rw [left_concat_of_not_set hs, Option.getD_none, UInt8.toNat_add, UInt8.toNat_ofNat', hold]
      omega
  · rw [hn, pointed_concat, address?_eq hfit, ← h.index_eq]
    cases i.pointed? <;> rfl
  · rw [hn, ← h.memory_eq]
  · rw [hn, ← h.picture_eq]
  · rw [hn, ← h.stack_eq]

/-- A program of straight instructions is executed instruction by instruction, in order. -/
theorem straight_run (hb : boot (assemble program) limit = .ok m)
    (hstraight : ∀ i ∈ program, i.Straight) (hfit : ∀ i ∈ program, i.Encodable) :
    ∀ n ≤ program.length, m.Completes n ∧ m.completed n = program.take n ∧
      m.Passed (program.take n) (m.after n)
  | 0, _ => ⟨m.completes_zero, rfl, .nil m⟩
  | n + 1, hn => by
    obtain ⟨hcompletes, hcompleted, hpassed⟩ :=
      straight_run hb hstraight hfit n (Nat.le_of_succ_le hn)
    have hmem : program[n] ∈ program := List.getElem_mem hn
    have hi : program[n]? = some program[n] := List.getElem?_eq_getElem hn
    obtain ⟨-, hpc, -⟩ := of_boot hb
    -- The program counter is at the place of the next instruction, and memory is as loaded.
    have hplace : (m.after n).pc.toNat = Memory.programStart + 2 * n := by
      rw [hpassed.pc_eq, hpc, List.length_take_of_le (Nat.le_of_succ_le hn)]
      rfl
    have hf := fetch_of_assemble hb hpassed.memory_eq hplace hi (hfit _ hmem)
    have hx : m.Executes n program[n] := (next_of_straight (hstraight _ hmem) hf).1
    have htake : program.take (n + 1) = program.take n ++ [program[n]] := by
      rw [List.take_add_one, hi]
      rfl
    refine ⟨hcompletes.add (n := 1) (completes_succ_of_next hx (completes_zero _)), ?_, ?_⟩
    · rw [completed_succ hx, hcompleted, htake]
    · rw [htake]
      exact hpassed.concat (hstraight _ hmem) hf

/-- Behind its program a machine finds a zero, which is no instruction, or the end of memory. -/
theorem fetch_behind (hb : boot (assemble program) limit = .ok m) (hm : t.memory = m.memory)
    (hpc : t.pc.toNat = 0x200 + 2 * program.length) :
    t.fetch = .error (if program.length < 1792 then .unknownOpcode 0x0000
      else .outOfRange (.cell 0x1000)) := by
  obtain ⟨hload, -⟩ := of_boot hb
  have hlen : 2 * program.length ≤ 3584 := by
    rw [← length_assemble]
    exact Memory.length_of_load hload
  split
  · rename_i hroom
    -- Neither the image nor the font reaches to the two cells behind the program.
    have hzero : ∀ offset < 2, t.memory.read (t.pc.toNat + offset) = .ok 0 := by
      intro offset ho
      have hstart : 0x200 ≤ t.pc.toNat + offset := by omega
      have hend : t.pc.toNat + offset < Memory.size := by rw [Memory.size]; omega
      have himage : (assemble program)[t.pc.toNat + offset - Memory.programStart]? = none := by
        rw [List.getElem?_eq_none_iff, length_assemble, Memory.programStart]
        omega
      have hfont : Font.bytes[t.pc.toNat + offset]? = none :=
        Vector.getElem?_eq_none_iff.2 (by omega)
      rw [hm, Memory.read_load hload, if_pos ⟨hstart, hend⟩, himage, Option.elim_none,
        Memory.read_fresh hend, hfont]
      rfl
    rw [fetch_of_read (hzero 0 (by omega)) (hzero 1 (by omega))]
    rfl
  · have hend : t.pc.toNat = 0x1000 := by omega
    rw [fetch_error_iff, hend]
    exact Or.inl rfl

/-- Straight-line programs compute what they say. A program that only sets registers, adds to them
and points the index register is executed once, from its first instruction to its last, and leaves
in each register what the text of the program makes of it. -/
theorem boot_straight (hlen : program.length ≤ 1792) (hstraight : ∀ i ∈ program, i.Straight)
    (hfit : ∀ i ∈ program, i.Encodable) (limit : Nat) (rate : Option UInt32) :
    ∃ m report, boot (assemble program) limit = .ok m ∧
      Control.run (.ofLimits rate none) m = report ∧
      Session.EndsAfter .absent program.length (.start (.ofLimits rate none) m ()) report ∧
      m.completed program.length = program ∧
      report.result = .error (if program.length < 1792 then .unknownOpcode 0x0000
        else .outOfRange (.cell 0x1000)) ∧
      report.session.machine.cycles.toNat = program.length ∧
      report.session.machine.pc.toNat = 0x200 + 2 * program.length ∧
      (∀ register : UInt8, register.toNat < 16 →
        (report.session.machine.registers.get register).toNat = left register 0 program % 256) ∧
      report.session.machine.index.toNat = pointed 0 program ∧
      report.session.machine.memory = m.memory ∧
      report.session.machine.picture = m.picture ∧
      report.session.machine.stack = CallStack.empty limit := by
  have himage : (assemble program).length ≤ Memory.capacity := by
    rw [length_assemble]
    exact Nat.mul_le_mul_left 2 hlen
  obtain ⟨m, hb⟩ := exists_boot himage limit
  obtain ⟨-, hpc, hindex, hstack, hregisters⟩ := of_boot hb
  obtain ⟨hcompletes, hcompleted, hpassed⟩ :=
    straight_run hb hstraight hfit program.length (Nat.le_refl _)
  rw [List.take_length] at hcompleted hpassed
  have hbehind : (m.after program.length).pc.toNat = 0x200 + 2 * program.length := by
    rw [hpassed.pc_eq, hpc]
    rfl
  have hstep := step_of_fetch_error (fetch_behind hb hpassed.memory_eq hbehind)
  obtain ⟨report, hends, hresult, hmachine⟩ := Session.exists_endsAfter (o := .absent)
    (s := .start (.ofLimits rate none) m ()) (fun _ _ => rfl) rfl rfl hcompletes
    (congrArg Outcome.result hstep)
  -- The last round finds no instruction and leaves the machine as it is.
  have hleft : report.session.machine = m.after program.length := by
    rw [hmachine]
    exact congrArg Outcome.state hstep
  have hcycles : (m.after program.length).cycles.toNat = program.length := by
    have hzero := cycles_boot hb
    rw [toNat_cycles_after hcompletes (by rw [hzero]; simp [UInt64.size]; omega), hzero]
    exact Nat.zero_add _
  have hregister : ∀ register, m.registers.get register = 0 := fun register => by
    rw [hregisters, Registers.get_fresh]
  refine ⟨m, report, hb, hends.finish_eq, hends, hcompleted, hresult, ?_⟩
  rw [hleft]
  refine ⟨hcycles, hbehind, fun register hr => ?_, ?_, hpassed.memory_eq, hpassed.picture_eq,
    hpassed.stack_eq.trans hstack⟩
  · rw [hpassed.get_eq register hr, hregister]
  · rw [hpassed.index_eq, hindex]
    rfl

/-- A program that sets registers between additions that wrap, and points twice. -/
theorem boot_straight_wraps :
    let program : List Instruction := [.set 0xF 200, .add 0xF 100, .add 0 7, .point 0x123,
      .set 0 255, .add 0 1, .add 0 3, .glyph 0xA]
    (program.length ≤ 1792 ∧ (∀ i ∈ program, i.Straight) ∧ ∀ i ∈ program, i.Encodable) ∧
      ∃ m report, boot (assemble program) 16 = .ok m ∧
        Control.run (.ofLimits none none) m = report ∧ m.completed 8 = program ∧
          report.result = .error (.unknownOpcode 0x0000) ∧
            report.session.machine.pc.toNat = 0x210 ∧
              (report.session.machine.registers.get 0xF).toNat = 44 ∧
                (report.session.machine.registers.get 0).toNat = 3 ∧
                  (report.session.machine.registers.get 1).toNat = 0 ∧
                    report.session.machine.index.toNat = 50 := by
  intro program
  have hlen : program.length ≤ 1792 := by decide
  have hstraight : ∀ i ∈ program, i.Straight := by decide
  have hfit : ∀ i ∈ program, i.Encodable := by decide
  obtain ⟨m, report, hb, hrun, -, hcompleted, hresult, -, hpc, hregisters, hindex, -⟩ :=
    boot_straight hlen hstraight hfit 16 none
  have hflag : left 0xF 0 program % 256 = 44 := by decide
  have hzero : left 0 0 program % 256 = 3 := by decide
  exact ⟨⟨hlen, hstraight, hfit⟩, m, report, hb, hrun, hcompleted, hresult, hpc,
    (hregisters 0xF (by decide)).trans hflag, (hregisters 0 (by decide)).trans hzero,
    hregisters 1 (by decide), hindex⟩

end Machine

end Chip8
