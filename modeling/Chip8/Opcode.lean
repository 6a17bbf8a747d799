/-!
# Opcodes

An opcode is a word of four hexadecimal digits. The first names the family of instructions,
the others carry the operands, under the names they have in the instruction table : `x`, `y`
and `n` are the second, third and fourth digit, `kk` the last two and `nnn` the last three.

An opcode is put together from its family and an address (`ofAddress`), a digit and a byte
(`ofByte`) or three digits (`ofDigits`). Fields that fit come out again, and the fields of a
word make up the word.
-/

namespace Chip8

/-- A word read as an instruction. -/
abbrev Opcode := UInt16

namespace Opcode

/-! ## Fields -/

/-- The number that `count` digits of the opcode make, from digit `start` on. Digits are
counted from the left, from 1. -/
def digits (code : Opcode) (start count : Nat) : Nat :=
  code.toNat / Nat.pow 16 (5 - start - count) % Nat.pow 16 count

/-- The first digit. -/
def family (code : Opcode) : UInt8 := .ofNat (code.digits 1 1)

/-- The second digit, which names a register or a glyph. -/
def x (code : Opcode) : UInt8 := .ofNat (code.digits 2 1)

/-- The third digit, which names a register. -/
def y (code : Opcode) : UInt8 := .ofNat (code.digits 3 1)

/-- The fourth digit, the height of a sprite. -/
def n (code : Opcode) : UInt8 := .ofNat (code.digits 4 1)

/-- The last two digits, a byte. -/
def kk (code : Opcode) : UInt8 := .ofNat (code.digits 3 2)

/-- The last three digits, an address. -/
def nnn (code : Opcode) : UInt16 := .ofNat (code.digits 2 3)

/-- The opcode of a family with an address. -/
def ofAddress (family : UInt8) (nnn : UInt16) : Opcode :=
  .ofNat (0x1000 * family.toNat + nnn.toNat)

/-- The opcode of a family with a digit and a byte. -/
def ofByte (family x kk : UInt8) : Opcode :=
  .ofNat (0x1000 * family.toNat + 0x100 * x.toNat + kk.toNat)

/-- The opcode of a family with three digits. -/
def ofDigits (family x y n : UInt8) : Opcode :=
  .ofNat (0x1000 * family.toNat + 0x100 * x.toNat + 0x10 * y.toNat + n.toNat)

/-! ## The values of the fields -/

theorem toNat_family (code : Opcode) : code.family.toNat = code.toNat / 0x1000 := by
  have := code.toNat_lt
  simp [family, digits]
  omega

theorem toNat_x (code : Opcode) : code.x.toNat = code.toNat / 0x100 % 0x10 := by
  simp [x, digits]
  omega

theorem toNat_y (code : Opcode) : code.y.toNat = code.toNat / 0x10 % 0x10 := by
  simp [y, digits]
  omega

theorem toNat_n (code : Opcode) : code.n.toNat = code.toNat % 0x10 := by
  simp [n, digits]
  omega

theorem toNat_kk (code : Opcode) : code.kk.toNat = code.toNat % 0x100 := by
  simp [kk, digits]

theorem toNat_nnn (code : Opcode) : code.nnn.toNat = code.toNat % 0x1000 := by
  simp [nnn, digits]
  omega

theorem toNat_ofAddress {family : UInt8} {nnn : UInt16} (hf : family.toNat < 16)
    (ha : nnn.toNat < 0x1000) :
    (ofAddress family nnn).toNat = 0x1000 * family.toNat + nnn.toNat :=
  UInt16.toNat_ofNat_of_lt' (by rw [UInt16.size]; omega)

theorem toNat_ofByte {family x kk : UInt8} (hf : family.toNat < 16) (hx : x.toNat < 16) :
    (ofByte family x kk).toNat = 0x1000 * family.toNat + 0x100 * x.toNat + kk.toNat :=
  UInt16.toNat_ofNat_of_lt' (by have := kk.toNat_lt; rw [UInt16.size]; omega)

theorem toNat_ofDigits {family x y n : UInt8} (hf : family.toNat < 16) (hx : x.toNat < 16)
    (hy : y.toNat < 16) (hn : n.toNat < 16) :
    (ofDigits family x y n).toNat =
      0x1000 * family.toNat + 0x100 * x.toNat + 0x10 * y.toNat + n.toNat :=
  UInt16.toNat_ofNat_of_lt' (by rw [UInt16.size]; omega)

/-! ## The fields of a word make up the word -/

theorem family_lt (code : Opcode) : code.family.toNat < 16 := by
  have := code.toNat_lt
  rw [toNat_family]
  omega

theorem x_lt (code : Opcode) : code.x.toNat < 16 := by
  rw [toNat_x]
  omega

theorem y_lt (code : Opcode) : code.y.toNat < 16 := by
  rw [toNat_y]
  omega

theorem n_lt (code : Opcode) : code.n.toNat < 16 := by
  rw [toNat_n]
  omega

theorem nnn_lt (code : Opcode) : code.nnn.toNat < 0x1000 := by
  rw [toNat_nnn]
  omega

theorem ofAddress_fields (code : Opcode) : ofAddress code.family code.nnn = code := by
  rw [← UInt16.toNat_inj, toNat_ofAddress code.family_lt code.nnn_lt, toNat_family, toNat_nnn]
  omega

theorem ofByte_fields (code : Opcode) : ofByte code.family code.x code.kk = code := by
  rw [← UInt16.toNat_inj, toNat_ofByte code.family_lt code.x_lt, toNat_family, toNat_x, toNat_kk]
  omega

theorem ofDigits_fields (code : Opcode) :
    ofDigits code.family code.x code.y code.n = code := by
  rw [← UInt16.toNat_inj, toNat_ofDigits code.family_lt code.x_lt code.y_lt code.n_lt,
    toNat_family, toNat_x, toNat_y, toNat_n]
  omega

end Opcode

end Chip8
