import Chip8.Proofs.Faults

/-!
# Memory after edits

Memory is changed from outside by writing single bytes and by loading images (`Edit`). An edit is
refused for what it is, whatever memory holds (`Memory.edit_error_iff`), and then changes nothing.
Any other edit puts bytes into some cells (`Edit.Puts`) and leaves the others as they were
(`Memory.read_edit_of_puts`, `Memory.read_edit_of_not_puts`).

After any edits, refused ones among them, a cell therefore holds the byte that the last edit with a
byte for it has put there, or what it held at first if there is none (`Edit.Holds`). The main
statement, `Memory.read_edits`, says so of a fresh memory.
-/

namespace Chip8

/-- An operation that changes nothing when it fails, as an outcome. -/
def Outcome.ofExcept {σ : Type} (s : σ) : Except Fault σ → Outcome σ Unit
  | .ok t => ⟨t, .ok ()⟩
  | .error fault => ⟨s, .error fault⟩

/-- A change of memory from outside. -/
inductive Edit where
  | write (address : Nat) (value : UInt8)
  | load (image : List UInt8)
  deriving DecidableEq

namespace Edit

/-- The edits that are refused, and with which fault. -/
inductive Refused : Edit → Fault → Prop where
  /-- There is no such cell. -/
  | address {address : Nat} {value : UInt8} (h : 4096 ≤ address) :
    Refused (.write address value) (.outOfRange (.cell address))
  /-- The image is longer than the program area. -/
  | image {image : List UInt8} (h : 3584 < image.length) :
    Refused (.load image) (.imageTooLong image.length 3584)

/-- An edit that is not refused puts a byte into a cell. -/
inductive Puts : Edit → Nat → UInt8 → Prop where
  | write {address : Nat} {value : UInt8} (h : address < 4096) :
    Puts (.write address value) address value
  | load {image : List UInt8} {k : Nat} {value : UInt8} (hfits : image.length ≤ 3584)
    (hbyte : image[k]? = some value) : Puts (.load image) (0x200 + k) value

/-- The byte that a cell of a fresh memory holds after edits. -/
inductive Holds (edits : List Edit) (address : Nat) : UInt8 → Prop where
  /-- The last of the edits with a byte for the cell has put it there. -/
  | put {earlier later : List Edit} {e : Edit} {value : UInt8}
    (hedits : edits = earlier ++ e :: later) (hputs : e.Puts address value)
    (hlater : ∀ f ∈ later, ∀ other, ¬f.Puts address other) : Holds edits address value
  /-- No edit has a byte for the cell, which is one of the font. -/
  | font (h : address < 80) (hnone : ∀ e ∈ edits, ∀ other, ¬e.Puts address other) :
    Holds edits address Font.bytes[address]
  /-- No edit has a byte for the cell, which is behind the font. -/
  | zero (hfont : 80 ≤ address) (h : address < 4096)
    (hnone : ∀ e ∈ edits, ∀ other, ¬e.Puts address other) : Holds edits address 0

theorem puts_write_iff {address other : Nat} {value byte : UInt8} :
    (write address value).Puts other byte ↔ other = address ∧ address < 4096 ∧ byte = value := by
  refine ⟨fun h => ?_, ?_⟩
  · cases h with
    | write h => exact ⟨rfl, h, rfl⟩
  · rintro ⟨rfl, h, rfl⟩
    exact .write h

theorem puts_load_iff {image : List UInt8} {other : Nat} {byte : UInt8} :
    (load image).Puts other byte ↔
      image.length ≤ 3584 ∧ 0x200 ≤ other ∧ image[other - 0x200]? = some byte := by
  refine ⟨fun h => ?_, ?_⟩
  · cases h with
    | load hfits hbyte => exact ⟨hfits, Nat.le_add_right _ _, by rwa [Nat.add_sub_cancel_left]⟩
  · rintro ⟨hfits, hle, hbyte⟩
    obtain ⟨k, rfl⟩ := Nat.exists_eq_add_of_le hle
    exact .load hfits (by rwa [Nat.add_sub_cancel_left] at hbyte)

/-- Either no edit has a byte for a cell, or there is a last one that has. -/
theorem last_puts_cases (address : Nat) : ∀ edits : List Edit,
    (∀ e ∈ edits, ∀ other, ¬e.Puts address other) ∨
      ∃ earlier e later value, edits = earlier ++ e :: later ∧ e.Puts address value ∧
        ∀ f ∈ later, ∀ other, ¬f.Puts address other
  | [] => Or.inl (by simp)
  | e :: edits => by
    rcases last_puts_cases address edits with hnone | ⟨earlier, f, later, value, rfl, hputs, hlater⟩
    · by_cases he : ∃ value, e.Puts address value
      · obtain ⟨value, hputs⟩ := he
        exact Or.inr ⟨[], e, edits, value, rfl, hputs, hnone⟩
      · exact Or.inl (List.forall_mem_cons.2 ⟨not_exists.1 he, hnone⟩)
    · exact Or.inr ⟨e :: earlier, f, later, value, rfl, hputs, hlater⟩

end Edit

namespace Memory

open Edit (Puts Refused Holds)

variable {m : Memory} {e : Edit} {address : Nat} {value : UInt8} {fault : Fault}

/-- Makes an edit. -/
def edit (m : Memory) : Edit → Outcome Memory Unit
  | .write address value => Outcome.ofExcept m (m.write address value)
  | .load image => Outcome.ofExcept m (m.load image)

/-- The memory after edits that are made one after the other, whether they are refused or not. -/
def editAll (m : Memory) (edits : List Edit) : Memory :=
  edits.foldl (fun m e => (m.edit e).state) m

/-! ## One edit -/

theorem load_of_le {image : List UInt8} (h : image.length ≤ capacity) :
    ∃ t, m.load image = .ok t := by
  simp [load, h]

theorem load_of_lt {image : List UInt8} (h : capacity < image.length) :
    m.load image = .error (.imageTooLong image.length capacity) := by
  simp [load, Nat.not_le.2 h]

theorem edit_of_refused (h : e.Refused fault) : m.edit e = ⟨m, .error fault⟩ := by
  cases h with
  | address h => exact congrArg (Outcome.ofExcept m) (write_of_le m h _)
  | image h => exact congrArg (Outcome.ofExcept m) (load_of_lt h)

theorem edit_error_iff : (m.edit e).result = .error fault ↔ e.Refused fault := by
  refine ⟨fun h => ?_, fun h => by rw [edit_of_refused h]⟩
  cases e with
  | write address value =>
    rcases Nat.lt_or_ge address size with ha | ha
    · rw [edit, write_of_lt m ha, Outcome.ofExcept] at h
      exact nomatch h
    · rw [edit, write_of_le m ha, Outcome.ofExcept] at h
      exact Except.error.inj h ▸ .address ha
  | load image =>
    rcases Nat.lt_or_ge capacity image.length with hi | hi
    · rw [edit, load_of_lt hi, Outcome.ofExcept] at h
      exact Except.error.inj h ▸ .image hi
    · obtain ⟨t, ht⟩ := load_of_le (m := m) hi
      rw [edit, ht, Outcome.ofExcept] at h
      exact nomatch h

theorem read_edit_of_puts (h : e.Puts address value) :
    (m.edit e).state.read address = .ok value := by
  cases h with
  | write h =>
    have hwrite := write_of_lt m h value
    rw [edit, hwrite, Outcome.ofExcept, read_write hwrite, if_pos rfl]
  | @load image k value hfits hbyte =>
    obtain ⟨t, ht⟩ := load_of_le (m := m) hfits
    rw [edit, ht, Outcome.ofExcept]
    exact read_load_of_getElem? k ht hbyte

/-- A cell that an edit has no byte for holds what it held. -/
theorem read_edit_of_not_puts (h : ∀ value, ¬e.Puts address value) :
    (m.edit e).state.read address = m.read address := by
  cases e with
  | write other value =>
    rcases Nat.lt_or_ge other size with ho | ho
    · have hne : address ≠ other := by
        rintro rfl
        exact h value (.write ho)
      have hwrite := write_of_lt m ho value
      rw [edit, hwrite, Outcome.ofExcept, read_write hwrite, if_neg hne]
    · rw [edit_of_refused (.address ho)]
  | load image =>
    rcases Nat.lt_or_ge capacity image.length with hi | hi
    · rw [edit_of_refused (.image hi)]
    · obtain ⟨t, ht⟩ := load_of_le (m := m) hi
      rw [edit, ht, Outcome.ofExcept, read_load ht]
      split
      case isTrue hin =>
        cases hbyte : image[address - programStart]? with
        | none => rfl
        | some byte => exact (h byte (Edit.puts_load_iff.2 ⟨hi, hin.1, hbyte⟩)).elim
      case isFalse => rfl

/-! ## One edit after the other -/

theorem read_editAll_of_not_puts : ∀ (m : Memory) (edits : List Edit),
    (∀ e ∈ edits, ∀ value, ¬e.Puts address value) → (m.editAll edits).read address = m.read address
  | _, [], _ => rfl
  | m, e :: edits, h => by
    obtain ⟨he, hedits⟩ := List.forall_mem_cons.1 h
    rw [editAll, List.foldl_cons, ← editAll, read_editAll_of_not_puts _ edits hedits,
      read_edit_of_not_puts he]

theorem read_editAll_of_puts (earlier : List Edit) {later : List Edit}
    (hputs : e.Puts address value) (hlater : ∀ f ∈ later, ∀ other, ¬f.Puts address other) :
    (m.editAll (earlier ++ e :: later)).read address = .ok value := by
  rw [editAll, List.foldl_append, List.foldl_cons, ← editAll, ← editAll,
    read_editAll_of_not_puts _ later hlater, read_edit_of_puts hputs]

theorem read_fresh_editAll_of_holds {edits : List Edit} (h : Holds edits address value) :
    (fresh.editAll edits).read address = .ok value := by
  cases h with
  | @put earlier _ _ _ hedits hputs hlater => rw [hedits, read_editAll_of_puts earlier hputs hlater]
  | font h hnone =>
    rw [read_editAll_of_not_puts _ edits hnone, read_fresh (Nat.lt_trans h (by decide)),
      Vector.getElem?_eq_getElem h, Option.getD_some]
  | zero hfont h hnone =>
    rw [read_editAll_of_not_puts _ edits hnone, read_fresh h, Vector.getElem?_eq_none hfont,
      Option.getD_none]

theorem exists_holds (edits : List Edit) (h : address < size) :
    ∃ value, Holds edits address value := by
  rcases Edit.last_puts_cases address edits with hnone |
    ⟨earlier, e, later, value, hedits, hputs, hlater⟩
  · rcases Nat.lt_or_ge address 80 with hfont | hfont
    · exact ⟨_, .font hfont hnone⟩
    · exact ⟨_, .zero hfont h hnone⟩
  · exact ⟨value, .put hedits hputs hlater⟩

/-- The word of two cells, or the first of the two that is not there. -/
theorem word_cases (m : Memory) (address : Nat) :
    (address ≤ 4094 → ∃ high low word, m.read address = .ok high ∧
      m.read (address + 1) = .ok low ∧ m.word address = .ok word ∧
        word.toNat = 256 * high.toNat + low.toNat) ∧
    (4095 ≤ address → m.word address =
      .error (.outOfRange (.cell (if address < 4096 then address + 1 else address)))) := by
  refine ⟨fun h => ?_, fun h => ?_⟩
  · have hin : address + 1 < size := by simp only [size]; omega
    have hhigh := m.read_of_lt (Nat.lt_of_succ_lt hin)
    have hlow := m.read_of_lt hin
    refine ⟨_, _, _, hhigh, hlow, word_eq_ok_iff.2 ⟨_, _, hhigh, hlow, rfl⟩, ?_⟩
    rw [toNat_pair, Nat.mul_comm]
  · have hout : size < address + 2 := by simp only [size]; omega
    refine word_error_iff.2 (rangeFault?_eq_some_iff.2 ⟨Nat.two_pos, hout, ?_⟩)
    congr 2
    simp only [size]
    split <;> omega

/-- Memory keeps in each cell what was put there last, by a write or by an image, and a refused edit
changes nothing. A cell into which nothing was put holds its byte of the font, or zero. -/
theorem read_edits (edits : List Edit) :
    (∀ (m : Memory) e fault, ((m.edit e).result = .error fault ↔ e.Refused fault) ∧
      ((m.edit e).result = .error fault → (m.edit e).state = m)) ∧
    (∀ address < 4096, ∃ value, (fresh.editAll edits).read address = .ok value) ∧
    (∀ address value, (fresh.editAll edits).read address = .ok value ↔
      Holds edits address value) ∧
    (∀ (m : Memory) image, ∀ address < 0x200,
      (m.edit (.load image)).state.read address = m.read address) ∧
    (∀ (m : Memory) (long short : List UInt8), long.length ≤ 3584 → ∀ k, short.length ≤ k →
      ∀ hk : k < long.length,
        (m.editAll [.load long, .load short]).read (0x200 + k) = .ok long[k]) ∧
    ∀ (m : Memory) address,
      (address ≤ 4094 → ∃ high low word, m.read address = .ok high ∧
        m.read (address + 1) = .ok low ∧ m.word address = .ok word ∧
          word.toNat = 256 * high.toNat + low.toNat) ∧
      (4095 ≤ address → m.word address =
        .error (.outOfRange (.cell (if address < 4096 then address + 1 else address)))) := by
  have htotal : ∀ address < 4096, ∃ value, Holds edits address value :=
    fun address h => exists_holds edits h
  refine ⟨fun m e fault => ⟨edit_error_iff, fun h => ?_⟩, fun address h => ?_,
    fun address value => ⟨fun h => ?_, read_fresh_editAll_of_holds⟩, fun m image address h => ?_,
    fun m long short hfits k hshort hk => ?_, word_cases⟩
  · rw [edit_of_refused (edit_error_iff.1 h)]
  · obtain ⟨value, hholds⟩ := htotal address h
    exact ⟨value, read_fresh_editAll_of_holds hholds⟩
  · -- A cell holds one byte only, so it is the one that the edits have left.
    obtain ⟨other, hholds⟩ := htotal address (lt_of_read h)
    obtain rfl := Except.ok.inj ((read_fresh_editAll_of_holds hholds).symm.trans h)
    exact hholds
  · refine read_edit_of_not_puts fun value hputs => ?_
    exact Nat.not_le.2 h (Edit.puts_load_iff.1 hputs).2.1
  · refine read_editAll_of_puts [] (.load hfits (List.getElem?_eq_getElem hk)) ?_
    intro f hf other hputs
    obtain rfl := List.mem_singleton.1 hf
    have hbyte := (Edit.puts_load_iff.1 hputs).2.2
    rw [Nat.add_sub_cancel_left, List.getElem?_eq_none hshort] at hbyte
    exact nomatch hbyte

/-- A load of three bytes, a write over the second and one that is refused, a load of one byte and
one that is refused. -/
theorem read_edits_overlap : ∃ oversized : List UInt8, oversized.length = 3585 ∧
    let edits : List Edit := [.load [0xAA, 0xBB, 0xCC], .write 0x201 0x11, .write 4096 0x99,
      .load [0x22], .load oversized]
    (fresh.editAll edits).read 0x200 = .ok 0x22 ∧ (fresh.editAll edits).read 0x201 = .ok 0x11 ∧
      (fresh.editAll edits).read 0x202 = .ok 0xCC ∧ (fresh.editAll edits).read 0x203 = .ok 0 ∧
        (fresh.editAll edits).read 1 = .ok 0x90 ∧
          (fresh.edit (.load oversized)).result = .error (.imageTooLong 3585 3584) ∧
            (fresh.editAll [.load [0xAA, 0xBB], .load [0x22]]).read 0x201 = .ok 0xBB ∧
              fresh.word 4095 = .error (.outOfRange (.cell 4096)) := by
  obtain ⟨oversized, hlen⟩ : ∃ oversized : List UInt8, oversized.length = 3585 :=
    ⟨List.replicate 3585 0, List.length_replicate⟩
  refine ⟨oversized, hlen, ?_⟩
  intro edits
  obtain ⟨hrefused, -, hread, -, htail, hword⟩ := read_edits edits
  have hput : ∀ earlier, ∀ {later e address value}, edits = earlier ++ e :: later →
      e.Puts address value → (∀ f ∈ later, ∀ other, ¬f.Puts address other) →
        (fresh.editAll edits).read address = .ok value :=
    fun _ _ _ _ _ hedits hputs hlater => (hread _ _).2 (.put hedits hputs hlater)
  refine ⟨?_, ?_, ?_, ?_, ?_, ?_, htail fresh [0xAA, 0xBB] [0x22] (by decide) 1 (by decide)
    (by decide), (hword fresh 4095).2 (Nat.le_refl _)⟩
  · exact hput (edits.take 3) rfl (.load (k := 0) (by decide) rfl)
      (by simp [Edit.puts_load_iff, hlen])
  · exact hput (edits.take 1) rfl (.write (by decide))
      (by simp [Edit.puts_load_iff, Edit.puts_write_iff, hlen])
  · exact hput [] rfl (.load (k := 2) (by decide) rfl)
      (by simp [Edit.puts_load_iff, Edit.puts_write_iff, hlen])
  · exact (hread _ _).2 (.zero (by decide) (by decide)
      (by simp [edits, Edit.puts_load_iff, Edit.puts_write_iff, hlen]))
  · exact (hread _ _).2 (.font (by decide)
      (by simp [edits, Edit.puts_load_iff, Edit.puts_write_iff, hlen]))
  · have himage : Refused (.load oversized) _ := .image (by omega)
    rw [hlen] at himage
    exact (hrefused fresh _ _).1.2 himage

end Memory

end Chip8
