import Chip8.Instruction.Decode

/-!
# Assembling

The opcode of an instruction (`Instruction.encode`), its two bytes, high byte first, and the
image of a program (`Instruction.assemble`).

An opcode has a digit for a register, a glyph or a height, two for a byte and three for an
address; `Instruction.Encodable` says that the operands fit. Then `Instruction.decode` reads
the instruction back (`decode_encode`), it reads no other word as that instruction
(`encode_of_decode`), and all it reads fits (`encodable_of_decode`).
-/

namespace Chip8.Instruction

/-- The operands fit the digits that an opcode has for them. -/
def Encodable : Instruction → Prop
  | ret => True
  | call target => target.toNat < 0x1000
  | set register _ => register.toNat < 16
  | add register _ => register.toNat < 16
  | point address => address.toNat < 0x1000
  | draw column row height => column.toNat < 16 ∧ row.toNat < 16 ∧ height.toNat < 16
  | glyph digit => digit.toNat < 16
  | decimal register => register.toNat < 16
  | fill last => last.toNat < 16

instance (i : Instruction) : Decidable i.Encodable := by
  cases i <;> unfold Encodable <;> infer_instance

/-- The opcode of an instruction. -/
def encode : Instruction → Opcode
  | ret => .ofByte 0x0 0x0 0xEE
  | call target => .ofAddress 0x2 target
  | set register value => .ofByte 0x6 register value
  | add register value => .ofByte 0x7 register value
  | point address => .ofAddress 0xA address
  | draw column row height => .ofDigits 0xD column row height
  | glyph digit => .ofByte 0xF digit 0x29
  | decimal register => .ofByte 0xF register 0x33
  | fill last => .ofByte 0xF last 0x65

/-- The two bytes of an instruction, high byte first. -/
def bytes (i : Instruction) : List UInt8 :=
  [.ofNat (i.encode.toNat / 256), .ofNat (i.encode.toNat % 256)]

/-- The image of a program : the bytes of its instructions one after the other. -/
def assemble (program : List Instruction) : List UInt8 :=
  program.flatMap bytes

/-! ## Reading back what was written -/

theorem fields_ofAddress (family : UInt8) {nnn : UInt16} (hf : family.toNat < 16)
    (ha : nnn.toNat < 0x1000) :
    (Opcode.ofAddress family nnn).family = family ∧ (Opcode.ofAddress family nnn).nnn = nnn := by
  simp only [← UInt8.toNat_inj, ← UInt16.toNat_inj, Opcode.toNat_family, Opcode.toNat_nnn,
    Opcode.toNat_ofAddress hf ha]
  omega

theorem fields_ofByte (family kk : UInt8) {x : UInt8} (hf : family.toNat < 16) (hx : x.toNat < 16) :
    (Opcode.ofByte family x kk).family = family ∧ (Opcode.ofByte family x kk).x = x ∧
      (Opcode.ofByte family x kk).kk = kk := by
  have := kk.toNat_lt
  simp only [← UInt8.toNat_inj, Opcode.toNat_family, Opcode.toNat_x, Opcode.toNat_kk,
    Opcode.toNat_ofByte hf hx]
  omega

theorem fields_ofDigits (family : UInt8) {x y n : UInt8} (hf : family.toNat < 16) (hx : x.toNat < 16)
    (hy : y.toNat < 16) (hn : n.toNat < 16) :
    (Opcode.ofDigits family x y n).family = family ∧ (Opcode.ofDigits family x y n).x = x ∧
      (Opcode.ofDigits family x y n).y = y ∧ (Opcode.ofDigits family x y n).n = n := by
  simp only [← UInt8.toNat_inj, Opcode.toNat_family, Opcode.toNat_x, Opcode.toNat_y,
    Opcode.toNat_n, Opcode.toNat_ofDigits hf hx hy hn]
  omega

/-- An instruction whose operands fit is read back from its opcode. -/
theorem decode_encode {i : Instruction} (h : i.Encodable) : decode i.encode = .ok i := by
  cases i with
  | ret => rfl
  | call target =>
    obtain ⟨hf, ha⟩ := fields_ofAddress 0x2 (by decide) h
    simp [encode, decode, hf, ha]
  | set register value =>
    obtain ⟨hf, hx, hk⟩ := fields_ofByte 0x6 value (by decide) h
    simp [encode, decode, hf, hx, hk]
  | add register value =>
    obtain ⟨hf, hx, hk⟩ := fields_ofByte 0x7 value (by decide) h
    simp [encode, decode, hf, hx, hk]
  | point address =>
    obtain ⟨hf, ha⟩ := fields_ofAddress 0xA (by decide) h
    simp [encode, decode, hf, ha]
  | draw column row height =>
    obtain ⟨hf, hx, hy, hn⟩ := fields_ofDigits 0xD (by decide) h.1 h.2.1 h.2.2
    simp [encode, decode, hf, hx, hy, hn]
  | glyph digit =>
    obtain ⟨hf, hx, hk⟩ := fields_ofByte 0xF 0x29 (by decide) h
    simp [encode, decode, hf, hx, hk]
  | decimal register =>
    obtain ⟨hf, hx, hk⟩ := fields_ofByte 0xF 0x33 (by decide) h
    simp [encode, decode, hf, hx, hk]
  | fill last =>
    obtain ⟨hf, hx, hk⟩ := fields_ofByte 0xF 0x65 (by decide) h
    simp [encode, decode, hf, hx, hk]

/-- A word that is read as an instruction is the opcode of that instruction. -/
theorem encode_of_decode {code : Opcode} {i : Instruction} (h : decode code = .ok i) :
    i.encode = code := by
  unfold decode at h
  split at h
  case h_1 hf =>
    split at h
    case isTrue hx =>
      obtain rfl := Except.ok.inj h
      have hw := Opcode.ofByte_fields code
      rwa [hf, hx.1, hx.2] at hw
    case isFalse => simp at h
  case h_7 hf =>
    split at h
    case h_4 => simp at h
    all_goals
      rename_i hk
      obtain rfl := Except.ok.inj h
      have hw := Opcode.ofByte_fields code
      rwa [hf, hk] at hw
  case h_8 => simp at h
  case h_6 hf =>
    obtain rfl := Except.ok.inj h
    rw [encode, ← hf, Opcode.ofDigits_fields]
  case h_2 hf | h_5 hf =>
    obtain rfl := Except.ok.inj h
    rw [encode, ← hf, Opcode.ofAddress_fields]
  case h_3 hf | h_4 hf =>
    obtain rfl := Except.ok.inj h
    rw [encode, ← hf, Opcode.ofByte_fields]

/-- The operands of an instruction that was read fit an opcode. -/
theorem encodable_of_decode {code : Opcode} {i : Instruction} (h : decode code = .ok i) :
    i.Encodable := by
  unfold decode at h
  split at h
  case h_1 =>
    split at h
    case isTrue => exact Except.ok.inj h ▸ trivial
    case isFalse => simp at h
  case h_7 =>
    split at h
    case h_4 => simp at h
    all_goals exact Except.ok.inj h ▸ code.x_lt
  case h_8 => simp at h
  case h_6 => exact Except.ok.inj h ▸ ⟨code.x_lt, code.y_lt, code.n_lt⟩
  case h_2 | h_5 => exact Except.ok.inj h ▸ code.nnn_lt
  case h_3 | h_4 => exact Except.ok.inj h ▸ code.x_lt

end Chip8.Instruction
