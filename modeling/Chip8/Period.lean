import Chip8.Numeral

/-!
# Pacing

A run may be held to a number of instructions per second. `Period.ofRate` is the time from
one instruction to the next, in whole nanoseconds, and `Period.text` writes it in the largest
unit of which it has a whole one, with as many decimals as it needs.
-/

namespace Chip8

/-- A span of time. -/
structure Period where
  nanoseconds : Nat
  deriving DecidableEq

namespace Period

/-- The period of `rate` instructions per second. A rate of zero counts as one. -/
def ofRate (rate : UInt32) : Period :=
  ⟨1000000000 / max rate.toNat 1⟩

/-- The period with its unit. -/
def text (p : Period) : String :=
  if 1000000000 ≤ p.nanoseconds then Numeral.scaled 9 p.nanoseconds ++ "s"
  else if 1000000 ≤ p.nanoseconds then Numeral.scaled 6 p.nanoseconds ++ "ms"
  else if 1000 ≤ p.nanoseconds then Numeral.scaled 3 p.nanoseconds ++ "µs"
  else Numeral.scaled 0 p.nanoseconds ++ "ns"

end Period

end Chip8
