import Chip8.Proofs.Edits
import Chip8.Proofs.Routine

/-!
# Memory and registers with checks

The bytes of memory stand in one list, and so do the values of the registers. Reading and writing,
words and images are spelled out here as routines on such a list (`Cells`, `Bank`), each of which
meets the operation of the machine that it spells out.

The second address of a word is a sum, and nothing bounds the address it is made of. It fits because
the byte at the first address has been read by then (`Cells.meets_word`).
-/

namespace Chip8

open Routine (Meets)

/-! ## Memory -/

namespace Memory

/-- The bytes in the cells. -/
def bytes (m : Memory) : List UInt8 := m.cells.toList

variable {m t : Memory} {address : Nat} {value : UInt8}

theorem length_bytes (m : Memory) : m.bytes.length = size := Vector.length_toList

theorem getElem?_bytes (m : Memory) (address : Nat) :
    m.bytes[address]? = (m.read address).toOption := by
  rw [bytes, Vector.getElem?_toList]
  rcases Nat.lt_or_ge address size with h | h
  · rw [read_of_lt m h, Vector.getElem?_eq_getElem h]
    rfl
  · rw [read_of_le m h, Vector.getElem?_eq_none h]
    rfl

theorem bytes_write (h : m.write address value = .ok t) : m.bytes.set address value = t.bytes := by
  have hin : address < size := lt_of_read ((read_write h address).trans (if_pos rfl))
  refine List.ext_getElem? fun k => ?_
  rw [List.getElem?_set, length_bytes, getElem?_bytes, getElem?_bytes, read_write h]
  by_cases hk : address = k
  · rw [if_pos hk, if_pos hin, if_pos hk.symm]
    rfl
  · rw [if_neg hk, if_neg (Ne.symm hk)]

/-- An image that is not too long ends within memory. -/
theorem stop_le {image : List UInt8} (h : image.length ≤ capacity) :
    programStart + image.length ≤ size := by
  simp only [capacity, size, programStart] at *
  omega

/-- An image takes the place of as many bytes at the start of the program area. -/
theorem bytes_load {image : List UInt8} (h : m.load image = .ok t) :
    m.bytes.take programStart ++ image ++ m.bytes.drop (programStart + image.length) = t.bytes := by
  have hfits := stop_le (length_of_load h)
  have hstart : (m.bytes.take programStart).length = programStart := by
    rw [List.length_take, length_bytes]
    exact Nat.min_eq_left (by decide)
  refine List.ext_getElem? fun k => ?_
  -- A place is in front of the program area, in the image, or behind the image.
  rw [getElem?_bytes, read_load h, List.append_assoc]
  rcases Nat.lt_or_ge k programStart with hlow | hlow
  · rw [if_neg (by omega), List.getElem?_append_left (by omega), List.getElem?_take_of_lt hlow,
      getElem?_bytes]
  rw [List.getElem?_append_right (by omega), hstart]
  rcases Nat.lt_or_ge (k - programStart) image.length with himage | himage
  · rw [if_pos (by omega), List.getElem?_append_left himage, List.getElem?_eq_getElem himage]
    rfl
  · have hrest : programStart + image.length + (k - programStart - image.length) = k := by omega
    rw [List.getElem?_append_right himage, List.getElem?_drop, hrest, getElem?_bytes,
      List.getElem?_eq_none himage, Option.elim_none, ite_self]

/-- A byte finds no cell for where it is to go, whatever memory holds. -/
theorem guarded_write : Outcome.Guarded (fun cell : UInt8 × Nat => cellFault? cell.2)
    (fun (m : Memory) cell => m.write cell.2 cell.1) where
  refuse := by
    intro cell fault h m
    unfold cellFault? at h
    split at h
    case isTrue => exact nomatch h
    case isFalse hout => rw [write_of_le m (Nat.le_of_not_lt hout), Option.some.inj h]
  allow := by
    intro cell h m
    unfold cellFault? at h
    split at h
    case isTrue hin => exact ⟨_, write_of_lt m hin cell.1⟩
    case isFalse => exact nomatch h

end Memory

namespace Cells

/-- The byte in a cell, or the fault of a cell that is not there. -/
def read (address : Nat) : Routine (List UInt8) UInt8 := do
  match ← Routine.look (·[address]?) with
  | some byte => return byte
  | none => Routine.fail (.outOfRange (.cell address))

/-- Puts a byte into a cell. -/
def write (address : Nat) (value : UInt8) : Routine (List UInt8) Unit := do
  if address < (← Routine.look List.length) then
    Routine.replace address value
  else
    Routine.fail (.outOfRange (.cell address))

/-- The word in two cells, the high byte first. -/
def word (address : Nat) : Routine (List UInt8) UInt16 := do
  let high ← read address
  let low ← read (← fit 64 (address + 1))
  return Memory.pair high low

/-- Loads an image, unless it is too long. -/
def load (image : List UInt8) : Routine (List UInt8) Unit := do
  if Memory.capacity < image.length then
    Routine.fail (.imageTooLong image.length Memory.capacity)
  else
    let stop ← fit 64 (Memory.programStart + image.length)
    Routine.copy Memory.programStart stop image

theorem meets_read (m : Memory) (address : Nat) :
    Meets Memory.bytes (read address) m ⟨m, m.read address⟩ := by
  refine Routine.meets_look.bind ?_
  rw [Memory.getElem?_bytes]
  rcases Nat.lt_or_ge address Memory.size with h | h
  · rw [Memory.read_of_lt m h]
    exact Routine.meets_pure
  · rw [Memory.read_of_le m h]
    exact Routine.meets_fail

theorem meets_write (m : Memory) (address : Nat) (value : UInt8) :
    Meets Memory.bytes (write address value) m (m.edit (.write address value)) := by
  refine Routine.meets_look.bind ?_
  rw [Memory.length_bytes]
  rcases Nat.lt_or_ge address Memory.size with h | h
  · have hwrite := Memory.write_of_lt m h value
    rw [if_pos h, Memory.edit, hwrite]
    exact Routine.meets_replace (m.length_bytes ▸ h) (Memory.bytes_write hwrite)
  · rw [if_neg (Nat.not_lt.2 h), Memory.edit_of_refused (.address h)]
    exact Routine.meets_fail

/-- The second address of a word fits, where the first byte has been read. -/
theorem meets_word (m : Memory) (address : Nat) :
    Meets Memory.bytes (word address) m ⟨m, m.word address⟩ := by
  have hhigh := meets_read m address
  have hlow := meets_read m (address + 1)
  rw [Memory.word]
  cases hh : m.read address with
  | error fault => exact (hh ▸ hhigh).bind_error
  | ok high =>
    have hlt : address + 1 < 2 ^ 64 := by
      have := Memory.lt_of_read hh
      simp only [Memory.size] at this
      omega
    refine (hh ▸ hhigh).bind <| (Routine.meets_check (fit_of_lt hlt)).bind ?_
    cases hl : m.read (address + 1) with
    | error fault => exact (hl ▸ hlow).bind_error
    | ok low => exact (hl ▸ hlow).bind Routine.meets_pure

theorem meets_load (m : Memory) (image : List UInt8) :
    Meets Memory.bytes (load image) m (m.edit (.load image)) := by
  rw [load]
  rcases Nat.lt_or_ge Memory.capacity image.length with h | h
  · rw [if_pos h, Memory.edit_of_refused (.image h)]
    exact Routine.meets_fail
  · obtain ⟨t, ht⟩ := Memory.load_of_le (m := m) h
    have hstop := Memory.stop_le h
    rw [if_neg (Nat.not_lt.2 h), Memory.edit, ht]
    have hlt : Memory.programStart + image.length < 2 ^ 64 := Nat.lt_of_le_of_lt hstop (by decide)
    refine (Routine.meets_check (fit_of_lt hlt)).bind (Routine.meets_copy ?_ (Memory.bytes_load ht))
    rw [m.length_bytes, Nat.add_sub_cancel_left]
    exact ⟨Nat.le_add_right _ _, hstop, rfl⟩

/-- Fresh memory is made by copying the font over zeros. -/
theorem copy_font : Routine.copy 0 80 Font.bytes.toList (List.replicate Memory.size 0) =
    some ⟨Memory.fresh.bytes, .ok ()⟩ := by
  have hin : 0 ≤ 80 ∧ 80 ≤ (List.replicate Memory.size (0 : UInt8)).length ∧
      Font.bytes.toList.length = 80 - 0 := by
    rw [List.length_replicate, Vector.length_toList]
    decide
  have hbytes : Font.bytes.toList ++ (List.replicate Memory.size 0).drop 80 =
      Memory.fresh.bytes := by
    refine List.ext_getElem? fun k => ?_
    rw [Memory.getElem?_bytes, List.drop_replicate, List.getElem?_append, Vector.length_toList,
      Vector.getElem?_toList, List.getElem?_replicate]
    rcases Nat.lt_or_ge k 80 with hfont | hfont
    · rw [if_pos hfont, Memory.read_fresh (Nat.lt_trans hfont (by decide)),
        Vector.getElem?_eq_getElem hfont]
      rfl
    rw [if_neg (Nat.not_lt.2 hfont)]
    rcases Nat.lt_or_ge k Memory.size with hk | hk
    · rw [if_pos (Nat.sub_lt_sub_right hfont hk), Memory.read_fresh hk,
        Vector.getElem?_eq_none hfont]
      rfl
    · rw [if_neg (Nat.not_lt.2 (Nat.sub_le_sub_right hk 80)), Memory.read_of_le _ hk]
      rfl
  rw [Routine.copy, if_pos hin, List.take_zero, List.nil_append, hbytes]

end Cells

/-! ## Registers -/

/-- The values of the registers. -/
def Registers.bytes (r : Registers) : List UInt8 := r.values.toList

namespace Bank

/-- The value of a register. -/
def get (register : UInt8) : Routine (List UInt8) UInt8 :=
  Routine.item (register &&& 0xF).toNat

/-- Gives a register a value. -/
def set (register value : UInt8) : Routine (List UInt8) Unit :=
  Routine.replace (register &&& 0xF).toNat value

/-- Adds to a register. -/
def add (register value : UInt8) : Routine (List UInt8) Unit := do
  let old ← get register
  set register (old + value)

theorem toNat_low (register : UInt8) : (register &&& 0xF).toNat = register.toNat % 16 := by
  rw [UInt8.toNat_and]
  exact Nat.and_two_pow_sub_one_eq_mod register.toNat 4

theorem meets_get (r : Registers) (register : UInt8) :
    Meets Registers.bytes (get register) r ⟨r, .ok (r.get register)⟩ := by
  refine Routine.meets_item ?_
  rw [toNat_low, Registers.bytes, Vector.getElem?_toList, Vector.getElem?_eq_getElem]
  rfl

theorem meets_set (r : Registers) (register value : UInt8) :
    Meets Registers.bytes (set register value) r ⟨r.set register value, .ok ()⟩ := by
  refine Routine.meets_replace ?_ ?_
  · rw [toNat_low, Registers.bytes, Vector.length_toList]
    exact Nat.mod_lt _ (by decide)
  · rw [toNat_low, Registers.bytes, Registers.bytes, Registers.set, Vector.toList_set]

theorem meets_add (r : Registers) (register value : UInt8) :
    Meets Registers.bytes (add register value) r ⟨r.add register value, .ok ()⟩ :=
  (meets_get r register).bind (meets_set r register _)

end Bank

end Chip8
