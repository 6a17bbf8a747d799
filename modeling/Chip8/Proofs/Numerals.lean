import Mathlib.Data.Nat.Digits.Defs
import Chip8.Numeral

/-!
# Numerals read back

A numeral tells its number : the digits, read from the left, make up the number that was written
(`Numeral.value_map_toDigits`), whatever case they are written in and however many zeros stand in
front of them (`Numeral.value_leftpad`). Only digits stand in it (`Numeral.notMem_map_toDigits`), so
a numeral ends where the next space is.
-/

namespace Chip8.Numeral

/-- The value of a digit, in lower or upper case. -/
def digitValue (c : Char) : Nat :=
  if c.isDigit then c.toNat - 48 else c.toUpper.toNat - 55

/-- The number that digits make. -/
def value (base : Nat) (digits : List Char) : Nat :=
  digits.foldl (fun n c => base * n + digitValue c) 0

variable {base : Nat} {write : Char → Char}

theorem value_concat (digits : List Char) (c : Char) :
    value base (digits ++ [c]) = base * value base digits + digitValue c := by
  simp [value]

theorem value_replicate_zero : ∀ k : Nat, value base (List.replicate k '0') = 0
  | 0 => rfl
  | k + 1 => by
    rw [List.replicate_succ', value_concat, value_replicate_zero k]
    rfl

theorem value_leftpad (width : Nat) (digits : List Char) :
    value base (digits.leftpad width '0') = value base digits := by
  rw [List.leftpad, value, List.foldl_append]
  exact congrArg (fun n => digits.foldl _ n) (value_replicate_zero _)

/-- Digits make the number that they were written for, also in another case. -/
theorem value_map_toDigits (hbase : 1 < base)
    (hwrite : ∀ d < base, digitValue (write d.digitChar) = d) (n : Nat) :
    value base ((Nat.toDigits base n).map write) = n := by
  rw [Nat.toDigits_eq_if hbase]
  split
  case isTrue hlt => simpa [value] using hwrite n hlt
  case isFalse hge =>
    have hsmaller : n / base < n := Nat.div_lt_self (by omega) hbase
    rw [List.map_append, List.map_singleton, value_concat,
      value_map_toDigits hbase hwrite (n / base), hwrite _ (Nat.mod_lt n (by omega)),
      Nat.div_add_mod]

theorem notMem_map_toDigits (hbase : 1 < base) {c : Char}
    (hwrite : ∀ d < base, write d.digitChar ≠ c) (n : Nat) :
    c ∉ (Nat.toDigits base n).map write := by
  rw [Nat.toDigits_eq_if hbase]
  split
  case isTrue hlt => simpa using (hwrite n hlt).symm
  case isFalse hge =>
    have hsmaller : n / base < n := Nat.div_lt_self (by omega) hbase
    rw [List.map_append, List.mem_append, not_or]
    refine ⟨notMem_map_toDigits hbase hwrite (n / base), ?_⟩
    simpa using (hwrite _ (Nat.mod_lt n (by omega))).symm

/-! ## Decimals -/

theorem value_toDigits_ten (n : Nat) : value 10 (Nat.toDigits 10 n) = n := by
  have hdigits : value 10 ((Nat.toDigits 10 n).map id) = n :=
    value_map_toDigits (by decide) (by decide) n
  rwa [List.map_id] at hdigits

theorem space_notMem_toDigits_ten (n : Nat) : ' ' ∉ Nat.toDigits 10 n := by
  have hdigits : ' ' ∉ (Nat.toDigits 10 n).map id :=
    notMem_map_toDigits (by decide) (by decide) n
  rwa [List.map_id] at hdigits

/-! ## Hexadecimals -/

theorem toList_hex (width n : Nat) :
    (hex width n).toList = '0' :: 'x' :: (hexDigits width n).toList := by
  simp [hex]

theorem value_hexDigits (width n : Nat) : value 16 (hexDigits width n).toList = n := by
  have hdigits : value 16 ((Nat.toDigits 16 n).map id) = n :=
    value_map_toDigits (by decide) (by decide) n
  rw [List.map_id] at hdigits
  rw [hexDigits, String.toList_ofList, value_leftpad, hdigits]

theorem space_notMem_hexDigits (width n : Nat) : ' ' ∉ (hexDigits width n).toList := by
  have hdigits : ' ' ∉ (Nat.toDigits 16 n).map id :=
    notMem_map_toDigits (by decide) (by decide) n
  rw [List.map_id] at hdigits
  rw [hexDigits, String.toList_ofList, List.leftpad, List.mem_append, not_or]
  exact ⟨fun h => absurd (List.eq_of_mem_replicate h) (by decide), hdigits⟩

theorem value_upperHex (n : Nat) : value 16 (upperHex n).toList = n := by
  rw [upperHex, String.toList_ofList, value_map_toDigits (by decide) (by decide)]

theorem space_notMem_upperHex (n : Nat) : ' ' ∉ (upperHex n).toList := by
  rw [upperHex, String.toList_ofList]
  exact notMem_map_toDigits (by decide) (by decide) n

end Chip8.Numeral
