import Chip8.Memory

/-!
# Cells after writing

What a run of writes leaves in each cell (`Memory.read_writeBytes`) and when it fails
(`Memory.result_writeBytes`) : the bytes that have a cell of memory are all written, those behind
the end of memory are not, and the fault names the first address without a cell.

A word is the pair of its bytes (`Memory.word_eq_ok_iff`), so it is the same in two memories that
agree on both cells. What an image leaves in each cell is `Memory.read_load`.
-/

namespace Chip8.Memory

/-! ## The cells as reads -/

/-- Memories that read alike are equal. -/
theorem eq_of_read {m t : Memory} (h : ∀ address, m.read address = t.read address) : m = t := by
  obtain ⟨cells⟩ := m
  obtain ⟨others⟩ := t
  congr 1
  refine Vector.ext fun address ha => ?_
  have := h address
  rw [read_of_lt _ ha, read_of_lt _ ha] at this
  exact Except.ok.inj this

theorem lt_of_read {m : Memory} {address : Nat} {value : UInt8}
    (h : m.read address = .ok value) : address < size := by
  rcases Nat.lt_or_ge address size with ha | ha
  · exact ha
  · simp [read_of_le m ha] at h

/-! ## Words -/

/-- The word of two bytes, the high byte first. -/
def pair (high low : UInt8) : UInt16 :=
  .ofNat (high.toNat * 256 + low.toNat)

theorem toNat_pair (high low : UInt8) : (pair high low).toNat = high.toNat * 256 + low.toNat := by
  have := high.toNat_lt
  have := low.toNat_lt
  exact UInt16.toNat_ofNat_of_lt' (by rw [UInt16.size]; omega)

theorem word_eq_ok_iff {m : Memory} {address : Nat} {word : UInt16} :
    m.word address = .ok word ↔ ∃ high low, m.read address = .ok high ∧
      m.read (address + 1) = .ok low ∧ word = pair high low := by
  unfold Memory.word
  cases hh : m.read address with
  | error => simp [bind, Except.bind]
  | ok high =>
    cases hl : m.read (address + 1) with
    | error => simp [bind, Except.bind]
    | ok low => simp [bind, Except.bind, pure, Except.pure, pair, eq_comm]

theorem word_congr {m t : Memory} {address : Nat} (hh : m.read address = t.read address)
    (hl : m.read (address + 1) = t.read (address + 1)) : m.word address = t.word address := by
  simp only [Memory.word, hh, hl]

/-! ## A run of writes -/

theorem write_of_lt (m : Memory) {address : Nat} (h : address < size) (value : UInt8) :
    m.write address value = .ok ⟨m.cells.set address value⟩ := by
  simp [write, h]

theorem write_of_le (m : Memory) {address : Nat} (h : size ≤ address) (value : UInt8) :
    m.write address value = .error (.outOfRange (.cell address)) := by
  simp [write, Nat.not_lt.2 h]

theorem writeBytes_of_le (m : Memory) {address : Nat} (h : size ≤ address) (byte : UInt8)
    (bytes : List UInt8) :
    m.writeBytes address (byte :: bytes) = ⟨m, .error (.outOfRange (.cell address))⟩ := by
  rw [writeBytes, List.zipIdx_cons, Outcome.each_cons_error (write_of_le m h byte)]

theorem writeBytes_of_lt {m t : Memory} {address : Nat} {byte : UInt8}
    (h : m.write address byte = .ok t) (bytes : List UInt8) :
    m.writeBytes address (byte :: bytes) = t.writeBytes (address + 1) bytes := by
  rw [writeBytes, List.zipIdx_cons, Outcome.each_cons_ok h, writeBytes]

/-- Every byte that has a cell of memory is written, and the other cells hold what they held. -/
theorem read_writeBytes : ∀ (m : Memory) (address : Nat) (bytes : List UInt8) (other : Nat),
    (m.writeBytes address bytes).state.read other =
      if address ≤ other ∧ other < size then (bytes[other - address]?).elim (m.read other) .ok
      else m.read other
  | m, address, [], other => by simp [writeBytes]
  | m, address, byte :: bytes, other => by
    rcases Nat.lt_or_ge address size with ha | ha
    · obtain ⟨t, ht⟩ : ∃ t, m.write address byte = .ok t := ⟨_, write_of_lt m ha byte⟩
      rw [writeBytes_of_lt ht, read_writeBytes t (address + 1) bytes other, read_write ht]
      rcases Nat.lt_trichotomy other address with h | rfl | h
      · rw [if_neg (by omega), if_neg (by omega), if_neg (by omega)]
      · rw [if_neg (by omega), if_pos rfl, if_pos ⟨Nat.le_refl other, ha⟩, Nat.sub_self]
        rfl
      · obtain ⟨k, hk⟩ : ∃ k, other - address = k + 1 := ⟨other - address - 1, by omega⟩
        have hk' : other - (address + 1) = k := by omega
        simp only [hk, hk', List.getElem?_cons_succ, if_neg (by omega : other ≠ address),
          (by omega : address + 1 ≤ other), (by omega : address ≤ other)]
    · rw [writeBytes_of_le m ha, if_neg (by omega)]

/-- A run of writes fails exactly if it reaches past the end of memory, and then with the first
address there. -/
theorem result_writeBytes : ∀ (m : Memory) (address : Nat) (bytes : List UInt8),
    (m.writeBytes address bytes).result =
      if bytes = [] ∨ address + bytes.length ≤ size then .ok ()
      else .error (.outOfRange (.cell (max address size)))
  | m, address, [] => by simp [writeBytes]
  | m, address, byte :: bytes => by
    rcases Nat.lt_or_ge address size with ha | ha
    · rw [writeBytes_of_lt (write_of_lt m ha byte), result_writeBytes _ (address + 1) bytes]
      simp only [List.length_cons, reduceCtorEq, false_or]
      rcases bytes with - | ⟨second, bytes⟩
      · simp [Nat.succ_le_iff.2 ha]
      · have hmax : max (address + 1) size = max address size := by omega
        simp only [reduceCtorEq, false_or, hmax, List.length_cons, Nat.add_assoc,
          Nat.add_comm 1]
    · rw [writeBytes_of_le m ha, if_neg (by simp; omega), Nat.max_eq_left ha]

/-- Writing the same bytes again changes nothing. -/
theorem writeBytes_twice (m : Memory) (address : Nat) (bytes : List UInt8) :
    ((m.writeBytes address bytes).state.writeBytes address bytes).state =
      (m.writeBytes address bytes).state := by
  refine eq_of_read fun other => ?_
  rw [read_writeBytes (m.writeBytes address bytes).state, read_writeBytes m]
  split
  · cases bytes[other - address]? <;> rfl
  · rfl

/-! ## An image -/

/-- A loaded image is in the cells from the start of the program area on, and the other cells hold
what they held. -/
theorem read_load {m t : Memory} {image : List UInt8} (h : m.load image = .ok t) (address : Nat) :
    t.read address =
      if programStart ≤ address ∧ address < size then
        (image[address - programStart]?).elim (m.read address) .ok
      else m.read address := by
  unfold load at h
  split at h
  · obtain rfl := Except.ok.inj h
    rcases Nat.lt_or_ge address size with ha | ha
    · simp only [read, ha, dite_true, and_true, Vector.getElem_ofFn, List.getElem?_toArray]
      split
      · cases image[address - programStart]? <;> rfl
      · rfl
    · rw [if_neg (by omega), read_of_le _ ha, read_of_le _ ha]
  · simp at h

theorem length_of_load {m t : Memory} {image : List UInt8} (h : m.load image = .ok t) :
    image.length ≤ capacity := by
  unfold load at h
  split at h
  · assumption
  · simp at h

/-- Before anything is loaded there is the font, and zeros behind it. -/
theorem read_fresh {address : Nat} (h : address < size) :
    fresh.read address = .ok (Font.bytes[address]?.getD 0) := by
  rw [read_of_lt _ h]
  simp [fresh]

/-- A byte of the image is in its cell. -/
theorem read_load_of_getElem? {m t : Memory} {image : List UInt8} {byte : UInt8} (offset : Nat)
    (h : m.load image = .ok t) (hb : image[offset]? = some byte) :
    t.read (programStart + offset) = .ok byte := by
  have hlt : offset < capacity :=
    Nat.lt_of_lt_of_le (List.getElem?_eq_some_iff.1 hb).1 (length_of_load h)
  rw [read_load h, if_pos ⟨Nat.le_add_right _ _, Nat.add_lt_of_lt_sub' hlt⟩,
    Nat.add_sub_cancel_left, hb]
  rfl

end Chip8.Memory
