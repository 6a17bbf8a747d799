import Chip8.Instruction.Encode
import Chip8.Proofs.Memory

/-!
# Which bytes make an instruction

The nine kinds of instructions, each with the family of its opcodes and, where the last byte does
not hold operands, with that byte (`Kind.family`, `Kind.low?`).

The kind and the second digit of an instruction depend on the high byte alone, as far as the low
byte holds operands (`decode_of_family`). Where it does not, it is one of four bytes none of which
is a decimal digit (`low?_gt_nine`), and a high byte that is a decimal digit belongs to a return
or to no instruction (`ret_of_decode_pair`).
-/

namespace Chip8

namespace Instruction

/-- The kinds of instructions. -/
inductive Kind where
  | ret
  | call
  | set
  | add
  | point
  | draw
  | glyph
  | decimal
  | fill
  deriving DecidableEq

/-- The kind of an instruction. -/
def kind : Instruction → Kind
  | ret => .ret
  | call _ => .call
  | set .. => .set
  | add .. => .add
  | point _ => .point
  | draw .. => .draw
  | glyph _ => .glyph
  | decimal _ => .decimal
  | fill _ => .fill

theorem kind_eq_ret_iff {i : Instruction} : i.kind = .ret ↔ i = .ret := by
  cases i <;> simp [kind]

theorem kind_eq_call_iff {i : Instruction} : i.kind = .call ↔ ∃ target, i = .call target := by
  cases i <;> simp [kind]

/-- The first digit of the opcodes of a kind. -/
def Kind.family : Kind → UInt8
  | ret => 0x0
  | call => 0x2
  | set => 0x6
  | add => 0x7
  | point => 0xA
  | draw => 0xD
  | glyph | decimal | fill => 0xF

/-- The last byte of the opcodes of a kind, if it is the same in all of them. -/
def Kind.low? : Kind → Option UInt8
  | ret => some 0xEE
  | glyph => some 0x29
  | decimal => some 0x33
  | fill => some 0x65
  | call | set | add | point | draw => none

theorem Kind.low?_gt_nine {kind : Kind} {low : UInt8} (h : kind.low? = some low) : 9 < low := by
  cases kind <;> simp [low?] at h <;> subst h <;> decide

/-! ## Reading a word -/

/-- A word that is no instruction is refused by its own name. -/
theorem eq_of_decode_error {code : Opcode} {fault : Fault} (h : decode code = .error fault) :
    fault = .unknownOpcode code := by
  unfold decode at h
  split at h
  case h_1 =>
    split at h
    · simp at h
    · exact (Except.error.inj h).symm
  case h_7 =>
    split at h
    case h_4 => exact (Except.error.inj h).symm
    all_goals simp at h
  case h_8 => exact (Except.error.inj h).symm
  all_goals simp at h

/-- A word that is an instruction shows the kind by its first digit and its last byte. -/
theorem family_of_decode {code : Opcode} {i : Instruction} (h : decode code = .ok i) :
    code.family = i.kind.family ∧ ∀ low, i.kind.low? = some low → code.kk = low := by
  have he := encode_of_decode h
  have hi := encodable_of_decode h
  subst he
  cases i with
  | ret => exact ⟨by decide, fun low hl => by rw [← Option.some.inj hl]; decide⟩
  | call target | point target =>
    exact ⟨(fields_ofAddress _ (by decide) hi).1, by simp [kind, Kind.low?]⟩
  | set register value | add register value =>
    exact ⟨(fields_ofByte _ _ (by decide) hi).1, by simp [kind, Kind.low?]⟩
  | draw column row height =>
    exact ⟨(fields_ofDigits _ (by decide) hi.1 hi.2.1 hi.2.2).1, by simp [kind, Kind.low?]⟩
  | glyph register | decimal register | fill register =>
    obtain ⟨hf, -, hk⟩ := fields_ofByte 0xF _ (by decide) hi
    exact ⟨hf, fun low hl => by rw [← Option.some.inj hl]; exact hk⟩

/-- Words with the first two digits of an instruction are of its kind, if its last byte holds
operands. -/
theorem decode_of_family {code other : Opcode} {i : Instruction} (h : decode code = .ok i)
    (hl : i.kind.low? = none) (hf : other.family = code.family) :
    ∃ j, decode other = .ok j ∧ j.kind = i.kind := by
  have hc := (family_of_decode h).1
  rw [hc] at hf
  cases i with
  | ret | glyph | decimal | fill => simp [kind, Kind.low?] at hl
  | call | set | add | point | draw => simp [decode, hf, kind, Kind.family]

end Instruction

/-! ## Words of two bytes -/

namespace Memory

theorem toNat_family_pair (high low : UInt8) :
    (Opcode.family (pair high low)).toNat = high.toNat / 16 := by
  have := low.toNat_lt
  rw [Opcode.toNat_family, toNat_pair]
  omega

theorem toNat_x_pair (high low : UInt8) :
    (Opcode.x (pair high low)).toNat = high.toNat % 16 := by
  have := low.toNat_lt
  rw [Opcode.toNat_x, toNat_pair]
  omega

theorem kk_pair (high low : UInt8) : Opcode.kk (pair high low) = low := by
  have := low.toNat_lt
  rw [← UInt8.toNat_inj, Opcode.toNat_kk, toNat_pair]
  omega

end Memory

namespace Instruction

open Memory

/-- The low byte of an instruction of a kind with a fixed last byte is that byte. -/
theorem low_of_decode_pair {high low fixed : UInt8} {i : Instruction}
    (h : decode (pair high low) = .ok i) (hl : i.kind.low? = some fixed) : low = fixed := by
  rw [← (family_of_decode h).2 fixed hl, kk_pair]

/-- A high byte that is a decimal digit makes no instruction but a return. -/
theorem ret_of_decode_pair {high low : UInt8} {i : Instruction} (hh : high ≤ 9)
    (h : decode (pair high low) = .ok i) : i = .ret ∧ low = 0xEE := by
  have hf : i.kind.family = 0x0 := by
    rw [← (family_of_decode h).1, ← UInt8.toNat_inj, toNat_family_pair]
    have : high.toNat ≤ 9 := UInt8.le_iff_toNat_le.1 hh
    exact Nat.div_eq_of_lt (by omega)
  cases i with
  | ret => exact ⟨rfl, low_of_decode_pair h rfl⟩
  | _ => simp [kind, Kind.family] at hf

/-- An instruction read from a word in which decimal digits may have taken the place of bytes is a
return whose low byte is no digit, or is of the kind of the word with the bytes that were there,
and is that very instruction if its last byte holds no operands. -/
theorem decode_pair_of_digits {high low high' low' : UInt8} {i : Instruction}
    (hh : high' = high ∨ high' ≤ 9) (hl : low' = low ∨ low' ≤ 9)
    (h : decode (pair high' low') = .ok i) :
    (i = .ret ∧ low = 0xEE) ∨ (high' = high ∧
      ∃ j, decode (pair high low) = .ok j ∧ j.kind = i.kind ∧ (i.kind.low?.isSome → j = i)) := by
  have hlow : ∀ fixed, i.kind.low? = some fixed → low' = low := by
    intro fixed hf
    refine hl.resolve_right fun hd => ?_
    rw [low_of_decode_pair h hf] at hd
    exact absurd (Kind.low?_gt_nine hf) (UInt8.not_lt.2 hd)
  rcases hh with rfl | hh
  · refine Or.inr ⟨rfl, ?_⟩
    cases hk : i.kind.low? with
    | some fixed => exact ⟨i, hlow fixed hk ▸ h, rfl, fun _ => rfl⟩
    | none =>
      have hf : Opcode.family (pair high' low) = Opcode.family (pair high' low') := by
        rw [← UInt8.toNat_inj, toNat_family_pair, toNat_family_pair]
      obtain ⟨j, hj, hkind⟩ := decode_of_family h hk hf
      exact ⟨j, hj, hkind, by simp⟩
  · obtain ⟨rfl, rfl⟩ := ret_of_decode_pair hh h
    exact Or.inl ⟨rfl, (hlow 0xEE rfl).symm⟩

end Instruction

end Chip8
