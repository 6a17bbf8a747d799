import Chip8.Instruction.Encode
import Chip8.Proofs.Numerals

/-!
# Mnemonics read back

The mnemonic of an instruction is a line of words with spaces between them (`Instruction.words`) : a
name and then the operands, with a comma behind each but the last. A numeral has no space in it, so
the words can be told from the text. The name and what an operand begins with tell the kind of the
instruction, and the numerals its operands : `Instruction.ofText?` reads the text back
(`Instruction.ofText?_text`).

Instructions with the same text are thus equal, whatever their operands are, and so are the opcodes
that they were read from (`Instruction.text_eq_text_iff`).
-/

namespace Chip8.Instruction

/-- The words of a mnemonic. -/
def words : Instruction → List (List Char)
  | ret => [['R', 'E', 'T']]
  | call target => [['C', 'A', 'L', 'L'], (Numeral.hex 3 target.toNat).toList]
  | set register value =>
    [['L', 'D'], (registerName register).toList ++ [','], (Numeral.hex 2 value.toNat).toList]
  | add register value =>
    [['A', 'D', 'D'], (registerName register).toList ++ [','], (Numeral.hex 2 value.toNat).toList]
  | point address => [['L', 'D'], ['I', ','], (Numeral.hex 3 address.toNat).toList]
  | draw column row height =>
    [['D', 'R', 'W'], (registerName column).toList ++ [','], (registerName row).toList ++ [','],
      (toString height.toNat).toList]
  | glyph digit => [['L', 'D'], ['F', ','], (Numeral.upperHex digit.toNat).toList]
  | decimal register => [['L', 'D'], ['B', ','], (registerName register).toList]
  | fill last => [['L', 'D'], (registerName last).toList ++ [','], ['[', 'I', ']']]

/-- The instruction behind the name that five kinds share, told by what its operands begin with. -/
def ofLoad? : List Char → List Char → Option Instruction
  | 'I' :: _, '0' :: 'x' :: address => some (point (.ofNat (Numeral.value 16 address)))
  | 'F' :: _, digit => some (glyph (.ofNat (Numeral.value 16 digit)))
  | 'B' :: _, 'V' :: register => some (decimal (.ofNat (Numeral.value 16 register)))
  | 'V' :: last, '[' :: _ => some (fill (.ofNat (Numeral.value 16 last.dropLast)))
  | 'V' :: register, '0' :: 'x' :: value =>
    some (set (.ofNat (Numeral.value 16 register.dropLast)) (.ofNat (Numeral.value 16 value)))
  | _, _ => none

/-- The instruction that words stand for. An operand in front of another is read without its
comma. -/
def ofWords? : List (List Char) → Option Instruction
  | [['R', 'E', 'T']] => some ret
  | [['C', 'A', 'L', 'L'], '0' :: 'x' :: target] => some (call (.ofNat (Numeral.value 16 target)))
  | [['L', 'D'], first, second] => ofLoad? first second
  | [['A', 'D', 'D'], 'V' :: register, '0' :: 'x' :: value] =>
    some (add (.ofNat (Numeral.value 16 register.dropLast)) (.ofNat (Numeral.value 16 value)))
  | [['D', 'R', 'W'], 'V' :: column, 'V' :: row, height] =>
    some (draw (.ofNat (Numeral.value 16 column.dropLast))
      (.ofNat (Numeral.value 16 row.dropLast)) (.ofNat (Numeral.value 10 height)))
  | _ => none

/-- The instruction that a text is the mnemonic of. -/
def ofText? (text : String) : Option Instruction :=
  ofWords? (text.toList.splitOn ' ')

theorem toList_registerName (register : UInt8) :
    (registerName register).toList = 'V' :: (Numeral.upperHex register.toNat).toList := by
  simp [registerName]

theorem toList_text (i : Instruction) : i.text.toList = [' '].intercalate i.words := by
  cases i <;> simp [text, words, List.intercalate]

theorem space_notMem_of_mem_words (i : Instruction) : ∀ word ∈ i.words, ' ' ∉ word := by
  cases i <;> simp [words, toList_registerName, Numeral.toList_hex, Numeral.space_notMem_upperHex,
    Numeral.space_notMem_hexDigits, Numeral.space_notMem_toDigits_ten]

theorem words_ne_nil (i : Instruction) : i.words ≠ [] := by
  cases i <;> simp [words]

theorem ofWords?_words (i : Instruction) : ofWords? i.words = some i := by
  cases i <;> simp [words, ofWords?, ofLoad?, toList_registerName, Numeral.toList_hex,
    Numeral.value_upperHex, Numeral.value_hexDigits, Numeral.value_toDigits_ten]

/-- The mnemonic of an instruction is read back as the instruction. -/
theorem ofText?_text (i : Instruction) : ofText? i.text = some i := by
  rw [ofText?, toList_text, List.splitOn_intercalate ' ' i.space_notMem_of_mem_words i.words_ne_nil,
    ofWords?_words]

/-- A mnemonic identifies its instruction, with operands over the whole ranges of their types. Where
instructions were read from opcodes, it identifies the opcode. -/
theorem text_eq_text_iff : (∀ i j : Instruction, i.text = j.text ↔ i = j) ∧
    ∀ (code other : Opcode) (i j : Instruction), decode code = .ok i → decode other = .ok j →
      (i.text = j.text ↔ code = other) := by
  have hinjective : ∀ i j : Instruction, i.text = j.text ↔ i = j := by
    refine fun i j => ⟨fun h => ?_, fun h => h ▸ rfl⟩
    have hread : some i = some j := by rw [← ofText?_text i, ← ofText?_text j, h]
    exact Option.some.inj hread
  refine ⟨hinjective, fun code other i j hi hj => (hinjective i j).trans ⟨?_, ?_⟩⟩
  · rintro rfl
    rw [← encode_of_decode hi, ← encode_of_decode hj]
  · rintro rfl
    exact Except.ok.inj (hi.symm.trans hj)

/-- A filling and a setting, whose mnemonics begin alike, and the one opcode for each. -/
theorem text_eq_text_iff_load :
    decode 0xFA65 = .ok (.fill 0xA) ∧ (fill 0xA).text = "LD VA, [I]" ∧
      decode 0x6A65 = .ok (.set 0xA 0x65) ∧ (set 0xA 0x65).text = "LD VA, 0x65" ∧
        ∀ (code : Opcode) (i : Instruction), decode code = .ok i →
          (i.text = "LD VA, [I]" → code = 0xFA65) ∧ (i.text = "LD VA, 0x65" → code = 0x6A65) := by
  have hfill : (fill 0xA).text = "LD VA, [I]" := by decide +kernel
  have hset : (set 0xA 0x65).text = "LD VA, 0x65" := by decide +kernel
  refine ⟨rfl, hfill, rfl, hset, fun code i hi => ⟨fun h => ?_, fun h => ?_⟩⟩
  · exact (text_eq_text_iff.2 code 0xFA65 i (fill 0xA) hi rfl).1 (h.trans hfill.symm)
  · exact (text_eq_text_iff.2 code 0x6A65 i (set 0xA 0x65) hi rfl).1 (h.trans hset.symm)

end Chip8.Instruction
