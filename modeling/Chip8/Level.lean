/-!
# Levels

Records have a level, from errors, which matter most, to the trace of every instruction. A log
goes down to some level and shows the records of that level and of those above it
(`Level.shownAt`).
-/

namespace Chip8

/-- How much a record matters. -/
inductive Level where
  | error
  | warning
  | info
  | debug
  | trace
  deriving DecidableEq

namespace Level

/-- The name of a level in a log. -/
def name : Level → String
  | error => "ERROR"
  | warning => "WARN"
  | info => "INFO"
  | debug => "DEBUG"
  | trace => "TRACE"

/-- The place of a level, the weightiest first. -/
def rank : Level → Nat
  | error => 0
  | warning => 1
  | info => 2
  | debug => 3
  | trace => 4

/-- A log that goes down to `threshold` holds the records of this level. -/
def shownAt (level threshold : Level) : Bool :=
  level.rank ≤ threshold.rank

end Level

end Chip8
