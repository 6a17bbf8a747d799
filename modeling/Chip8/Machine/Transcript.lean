import Chip8.Event
import Chip8.Machine.Execute

/-!
# The transcript of a cycle

Which records a machine's operations leave, told from the state before and the outcome. The
records are a view of the execution : nothing a machine does depends on them.

A fetch is recorded if both bytes of the word could be read, whether or not the word is an
instruction. A call and a return are recorded if they succeed, and no other instruction
leaves a record of its own.
-/

namespace Chip8

/-- The record of loading an image. -/
def Memory.loadEvents (m : Memory) (image : List UInt8) : List Event :=
  match m.load image with
  | .ok _ => [.imageLoaded image.length programStart]
  | .error _ => []

namespace Machine

/-- The record of booting with an image. -/
def bootEvents (image : List UInt8) : List Event :=
  Memory.fresh.loadEvents image

/-- The record of fetching. -/
def fetchEvents (m : Machine) : List Event :=
  match m.word with
  | .ok word => [.fetched m.pc word (Instruction.decode word).toOption]
  | .error _ => []

/-- The record of executing an instruction. -/
def executeEvents (m : Machine) (i : Instruction) : List Event :=
  let done := m.execute i
  match i, done.result with
  | .call target, .ok () =>
    [.called target m.pc done.state.stack.depth done.state.stack.limit]
  | .ret, .ok () => [.returned m.pc done.state.pc]
  | _, _ => []

/-- The records of a cycle. -/
def stepEvents (m : Machine) : List Event :=
  match m.fetch with
  | .ok i => m.fetchEvents ++ m.executeEvents i
  | .error _ => m.fetchEvents

end Machine

end Chip8
