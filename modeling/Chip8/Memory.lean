import Chip8.Font
import Chip8.Outcome

/-!
# Memory

Four kilobytes. The font stands at the bottom, programs are loaded at `programStart`, and the
program area reaches to the end, so an image has at most `capacity` bytes. An access outside
the cells fails with the address it asked for and changes nothing; a word is two cells, the
high byte first, and the first of the two that is outside is the one reported.
-/

namespace Chip8

/-- The contents of the cells. -/
structure Memory where
  cells : Vector UInt8 4096
  deriving DecidableEq

namespace Memory

/-- The number of cells. -/
abbrev size : Nat := 4096

/-- Where programs are loaded and where they begin. -/
abbrev programStart : Nat := 0x200

/-- The largest image. -/
abbrev capacity : Nat := size - programStart

/-- Memory before anything is loaded : the font, and zeros. -/
def fresh : Memory :=
  ⟨Vector.ofFn fun address => Font.bytes[address.val]?.getD 0⟩

/-- The byte in a cell. -/
def read (m : Memory) (address : Nat) : Except Fault UInt8 :=
  if h : address < size then .ok m.cells[address]
  else .error (.outOfRange (.cell address))

/-- Puts a byte into a cell. -/
def write (m : Memory) (address : Nat) (value : UInt8) : Except Fault Memory :=
  if h : address < size then .ok ⟨m.cells.set address value⟩
  else .error (.outOfRange (.cell address))

/-- The word in the cells `address` and `address + 1`, the high byte first. -/
def word (m : Memory) (address : Nat) : Except Fault UInt16 := do
  let high ← m.read address
  let low ← m.read (address + 1)
  return .ofNat (high.toNat * 256 + low.toNat)

/-- The bytes in `count` cells from `address` on. -/
def readBytes (m : Memory) (address count : Nat) : Except Fault (List UInt8) :=
  (List.range' address count).mapM m.read

/-- Puts bytes into the cells from `address` on, one after the other. -/
def writeBytes (m : Memory) (address : Nat) (bytes : List UInt8) : Outcome Memory Unit :=
  Outcome.each (fun m cell => m.write cell.2 cell.1) m (bytes.zipIdx address)

/-- Loads an image at the start of the program area. Cells outside the image keep their
contents, and an image that does not fit is not loaded at all. -/
def load (m : Memory) (image : List UInt8) : Except Fault Memory :=
  if image.length ≤ capacity then
    let bytes := image.toArray
    .ok ⟨Vector.ofFn fun address =>
      if programStart ≤ address.val then
        bytes[address.val - programStart]?.getD m.cells[address.val]
      else m.cells[address.val]⟩
  else .error (.imageTooLong image.length capacity)

/-- The cells from `start` on, at most `count` of them : what of the range is in memory. -/
def dump (m : Memory) (start count : Nat) : List UInt8 :=
  (m.cells.toList.drop start).take count

/-! ## Reading after writing -/

theorem read_of_lt (m : Memory) {address : Nat} (h : address < size) :
    m.read address = .ok m.cells[address] := by
  simp [read, h]

theorem read_of_le (m : Memory) {address : Nat} (h : size ≤ address) :
    m.read address = .error (.outOfRange (.cell address)) := by
  simp [read, Nat.not_lt.2 h]

/-- A cell that was written holds the value, and the others what they held. -/
theorem read_write {m t : Memory} {address : Nat} {value : UInt8}
    (h : m.write address value = .ok t) (other : Nat) :
    t.read other = if other = address then .ok value else m.read other := by
  unfold write at h
  split at h
  case isTrue ha =>
    obtain rfl := Except.ok.inj h
    by_cases ho : other < size
    · by_cases hoa : other = address
      · subst hoa
        simp [read, ha]
      · simp [read, ho, Ne.symm hoa, hoa]
    · have hoa : other ≠ address := by omega
      simp [read, ho, hoa]
  case isFalse => simp at h

end Memory

end Chip8
