/-!
# Numerals

How numbers are written in messages. Addresses, bytes and opcodes are hexadecimal with at
least a given number of digits (`hexDigits`), behind `0x` (`hex`); the names of registers
take upper-case digits and no padding (`upperHex`). Sizes, depths and coordinates are plain
decimals, which `toString` writes, and a number of thousandths or millionths is a decimal
with a point where it needs one (`scaled`).

No digit is ever dropped : a number with more digits than asked for is written in full.
-/

namespace Chip8.Numeral

/-- `n` in lower-case hexadecimal, filled up with zeros to `width` digits. -/
def hexDigits (width n : Nat) : String :=
  String.ofList ((Nat.toDigits 16 n).leftpad width '0')

/-- `n` in lower-case hexadecimal behind `0x`, with at least `width` digits. -/
def hex (width n : Nat) : String :=
  "0x" ++ hexDigits width n

/-- `n` in upper-case hexadecimal, with no more digits than it has. -/
def upperHex (n : Nat) : String :=
  String.ofList ((Nat.toDigits 16 n).map Char.toUpper)

/-- The decimals of `n / 10 ^ places`, without the zeros at the end. -/
def decimals (places n : Nat) : List Char :=
  let all := (Nat.toDigits 10 (n % Nat.pow 10 places)).leftpad places '0'
  (all.reverse.dropWhile (· == '0')).reverse

/-- `n / 10 ^ places` as a decimal, with a point only if there are decimals behind it. -/
def scaled (places n : Nat) : String :=
  let fraction := decimals places n
  toString (n / Nat.pow 10 places) ++
    if fraction.isEmpty then "" else "." ++ String.ofList fraction

end Chip8.Numeral
