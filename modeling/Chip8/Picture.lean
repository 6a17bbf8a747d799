import Chip8.Fault

/-!
# The picture

The display is a picture of 64 by 32 pixels, each lit or dark, row by row from the top. A
pixel only ever changes by XOR (`Picture.xorAt`), which tells whether it put out a lit pixel
and fails outside the picture. `Picture.text` writes the picture in characters, a line a row.
-/

namespace Chip8

/-- The rows of the picture, from the top, each from the left. -/
structure Picture where
  rows : Vector (Vector Bool 64) 32
  deriving DecidableEq

namespace Picture

/-- Pixels in a row. -/
abbrev width : Nat := 64

/-- Rows of the picture. -/
abbrev height : Nat := 32

/-- The dark picture. -/
def blank : Picture :=
  ⟨Vector.replicate height (Vector.replicate width false)⟩

/-- Whether the pixel in column `x` of row `y` is lit. Outside the picture there is none. -/
def pixel? (p : Picture) (x y : Nat) : Option Bool :=
  p.rows[y]?.bind (·[x]?)

/-- XORs a bit into a pixel, and tells whether a lit pixel went dark. -/
def xorAt (p : Picture) (x y : Nat) (bit : Bool) : Except Fault (Picture × Bool) :=
  if h : x < width ∧ y < height then
    have hx := h.1
    have hy := h.2
    let lit := p.rows[y][x]
    .ok (⟨p.rows.set y (p.rows[y].set x (lit ^^ bit))⟩, lit && bit)
  else .error (.outOfRange (.pixel x y))

/-- The pixels row by row. -/
def pixels (p : Picture) : List Bool :=
  p.rows.toList.flatMap Vector.toList

/-- The number of lit pixels. -/
def lit (p : Picture) : Nat := p.pixels.count true

/-- The character for a pixel. -/
def pixelChar (lit : Bool) : Char := if lit then '#' else '.'

/-- The picture in characters : a line for each row, and a line end after each. -/
def text (p : Picture) : String :=
  String.ofList (p.rows.toList.flatMap fun row => row.toList.map pixelChar ++ ['\n'])

theorem text_blank :
    blank.text = String.ofList (List.replicate 32 (List.replicate 64 '.' ++ ['\n'])).flatten := by
  have hrow : (Vector.replicate width false).toList.map pixelChar = List.replicate 64 '.' := by
    rw [Vector.toList_replicate, List.map_replicate]
    rfl
  rw [text, blank, Vector.toList_replicate, List.flatMap_replicate, hrow]

/-! ## Pixels after an XOR -/

/-- The bit went into the pixel it was aimed at, and the others are as they were. -/
theorem pixel?_xorAt {p q : Picture} {x y : Nat} {bit cleared : Bool}
    (h : p.xorAt x y bit = .ok (q, cleared)) (i j : Nat) :
    q.pixel? i j = if i = x ∧ j = y then (p.pixel? i j).map (· ^^ bit) else p.pixel? i j := by
  unfold xorAt at h
  split at h
  case isTrue hxy =>
    obtain ⟨rfl, -⟩ := Prod.mk.inj (Except.ok.inj h)
    obtain ⟨hx, hy⟩ := hxy
    by_cases hj : j = y
    · subst hj
      by_cases hi : i = x
      · subst hi
        simp [pixel?, hx, hy]
      · simp [pixel?, hy, hi, Vector.getElem?_set_ne, Ne.symm hi]
    · simp [pixel?, hj, Vector.getElem?_set_ne, Ne.symm hj]
  case isFalse => simp at h

/-- A bit cleared a pixel exactly if the pixel was lit and the bit is set. -/
theorem cleared_of_xorAt {p q : Picture} {x y : Nat} {bit cleared : Bool}
    (h : p.xorAt x y bit = .ok (q, cleared)) :
    cleared = ((p.pixel? x y).getD false && bit) := by
  unfold xorAt at h
  split at h
  case isTrue hxy =>
    obtain ⟨-, rfl⟩ := Prod.mk.inj (Except.ok.inj h)
    simp [pixel?, hxy.1, hxy.2]
  case isFalse => simp at h

end Picture

end Chip8
