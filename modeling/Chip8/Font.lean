/-!
# The built-in font

Sixteen glyphs, one for each hexadecimal digit, of five rows each. A row is a byte whose high
four bits are the picture. The glyphs stand one after the other from address 0 on, so the
glyph of a digit begins at five times the digit.
-/

namespace Chip8.Font

/-- Rows, and so bytes, of a glyph. -/
abbrev glyphHeight : Nat := 5

/-- The glyphs of `0` to `F`. -/
def bytes : Vector UInt8 80 := #v[
  0xF0, 0x90, 0x90, 0x90, 0xF0,
  0x20, 0x60, 0x20, 0x20, 0x70,
  0xF0, 0x10, 0xF0, 0x80, 0xF0,
  0xF0, 0x10, 0xF0, 0x10, 0xF0,
  0x90, 0x90, 0xF0, 0x10, 0x10,
  0xF0, 0x80, 0xF0, 0x10, 0xF0,
  0xF0, 0x80, 0xF0, 0x90, 0xF0,
  0xF0, 0x10, 0x20, 0x40, 0x40,
  0xF0, 0x90, 0xF0, 0x90, 0xF0,
  0xF0, 0x90, 0xF0, 0x10, 0xF0,
  0xF0, 0x90, 0xF0, 0x90, 0x90,
  0xE0, 0x90, 0xE0, 0x90, 0xE0,
  0xF0, 0x80, 0x80, 0x80, 0xF0,
  0xE0, 0x90, 0x90, 0x90, 0xE0,
  0xF0, 0x80, 0xF0, 0x80, 0xF0,
  0xF0, 0x80, 0xF0, 0x80, 0x80]

/-- Where the glyph of a digit begins. Only the low four bits of `digit` count. -/
def glyph (digit : UInt8) : UInt16 :=
  .ofNat (digit.toNat % 16 * glyphHeight)

theorem toNat_glyph (digit : UInt8) :
    (glyph digit).toNat = digit.toNat % 16 * 5 := by
  rw [glyph, glyphHeight, UInt16.toNat_ofNat_of_lt' (by rw [UInt16.size]; omega)]

end Chip8.Font
