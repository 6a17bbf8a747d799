import Chip8.Proofs.LitPixels
import Chip8.Proofs.Routine

/-!
# The picture as one list

The pixels of a picture stand in one list, row by row, and the pixel in column `x` of row `y` is at
the place `64 * y + x` (`Picture.getElem?_pixels_of_lt`). Changing a pixel, drawing a sprite and
looking at a pixel are spelled out here as routines on that list (`Frame`), with the sums and
products that make the place of a pixel and the coordinates of a dot.

Nothing bounds the coordinates before the dots of a sprite are added to them. A dot is only reached
if the dot before it is in the picture, and is next to that one or begins the next row, so its sums
fit (`Frame.offset_lt`), and the drawing on the list meets the drawing (`Frame.meets_blit`). So do
strokes that are drawn one after the other (`Frame.meets_paint`).
-/

namespace Chip8

/-- The dot moved to the right and down. -/
def Dot.shift (x y : Nat) (dot : Dot) : Dot := ⟨x + dot.x, y + dot.y, dot.bit⟩

namespace Picture

theorem length_pixels (p : Picture) : p.pixels.length = 2048 := by
  have hrow : ∀ row : Vector Bool width, row.toList.length = width := fun row => row.length_toList
  rw [pixels, length_flatMap_block hrow, Vector.length_toList, width]

/-- Which pixel is at a place of the list. -/
theorem getElem?_pixels (p : Picture) (k : Nat) : p.pixels[k]? = p.pixel? (k % 64) (k / 64) := by
  rw [pixels, getElem?_flatMap_block (by decide : 0 < width) fun row => Vector.length_toList,
    Vector.getElem?_toList]
  simp only [Vector.getElem?_toList, pixel?]

theorem getElem?_pixels_of_lt (p : Picture) {x : Nat} (hx : x < 64) (y : Nat) :
    p.pixels[64 * y + x]? = p.pixel? x y := by
  rw [getElem?_pixels]
  congr 1 <;> omega

theorem inside_of_xorAt {p q : Picture} {x y : Nat} {bit cleared : Bool}
    (h : p.xorAt x y bit = .ok (q, cleared)) : x < 64 ∧ y < 32 := by
  unfold xorAt at h
  split at h
  case isTrue hin => exact hin
  case isFalse => exact nomatch h

theorem outside_of_xorAt {p : Picture} {x y : Nat} {bit : Bool} {fault : Fault}
    (h : p.xorAt x y bit = .error fault) :
    ¬(x < 64 ∧ y < 32) ∧ .outOfRange (.pixel x y) = fault := by
  unfold xorAt at h
  split at h
  case isTrue => exact nomatch h
  case isFalse hout => exact ⟨hout, Except.error.inj h⟩

theorem xorAt_of_plot {drawn next : Picture × Bool} {dot : Dot} (h : plot drawn dot = .ok next) :
    ∃ q cleared, drawn.1.xorAt dot.x dot.y dot.bit = .ok (q, cleared) ∧
      (q, drawn.2 || cleared) = next := by
  unfold plot at h
  cases hxor : drawn.1.xorAt dot.x dot.y dot.bit with
  | error => simp [hxor, Except.map] at h
  | ok after => exact ⟨after.1, after.2, rfl, Except.ok.inj (hxor ▸ h)⟩

theorem xorAt_of_plot_error {drawn : Picture × Bool} {dot : Dot} {fault : Fault}
    (h : plot drawn dot = .error fault) : drawn.1.xorAt dot.x dot.y dot.bit = .error fault := by
  unfold plot at h
  cases hxor : drawn.1.xorAt dot.x dot.y dot.bit with
  | error => simpa [hxor, Except.map] using h
  | ok => simp [hxor, Except.map] at h

/-- An XOR changes one place of the list. -/
theorem pixels_xorAt {p q : Picture} {x y : Nat} {bit lit cleared : Bool}
    (h : p.xorAt x y bit = .ok (q, cleared)) (hlit : p.pixel? x y = some lit) :
    p.pixels.set (64 * y + x) (lit ^^ bit) = q.pixels := by
  obtain ⟨hx, hy⟩ := inside_of_xorAt h
  refine List.ext_getElem? fun k => ?_
  rw [getElem?_pixels, pixel?_xorAt h, List.getElem?_set, length_pixels]
  by_cases hk : 64 * y + x = k
  · have hplace : k % 64 = x ∧ k / 64 = y := by omega
    rw [if_pos hk, if_pos (by omega), if_pos hplace, hplace.1, hplace.2, hlit, Option.map_some]
  · rw [if_neg hk, if_neg (by omega), getElem?_pixels]

/-- A sprite with a row fails at its corner if that is outside the picture. -/
theorem blit_of_outside (p : Picture) {x y : Nat} (h : ¬(x < 64 ∧ y < 32)) {rows : List UInt8}
    (hrows : rows ≠ []) : p.blit x y rows = ⟨p, .error (.outOfRange (.pixel x y))⟩ := by
  obtain ⟨row, rest, rfl⟩ := List.exists_cons_of_ne_nil hrows
  have hcorner := Dot.getElem?_ofSprite x y (row :: rest) 0
  cases hdots : Dot.ofSprite x y (row :: rest) with
  | nil => simp [hdots] at hcorner
  | cons dot dots =>
    rw [hdots, List.getElem?_cons_zero] at hcorner
    have hdot : dot = ⟨x, y, row.toNat.testBit 7⟩ := Option.some.inj hcorner
    have hfault : dot.fault? = some (.outOfRange (.pixel x y)) :=
      hdot ▸ Dot.fault?_eq_some_iff.2 ⟨h, rfl⟩
    rw [blit, hdots, Outcome.each_cons_error (guarded_plot.refuse hfault (p, false))]
    rfl

end Picture

open Routine (Meets)

namespace Frame

/-- The place of a pixel in the list. -/
def place (x y : Nat) : Routine (List Bool) Nat := do
  if 64 ≤ x ∨ 32 ≤ y then
    Routine.fail (.outOfRange (.pixel x y))
  else
    let start ← fit 64 (y * 64)
    fit 64 (start + x)

/-- XORs a bit into a pixel. -/
def xorAt (x y : Nat) (bit : Bool) : Routine (List Bool) Bool := do
  let k ← place x y
  let before ← Routine.item k
  Routine.replace k (before ^^ bit)
  let after ← Routine.item k
  return before && !after

/-- Draws a sprite. The dots of the sprite at the origin say how far from the corner each dot is. -/
def blit (x y : Nat) (rows : List UInt8) : Routine (List Bool) Bool := do
  let mut collision := false
  for offset in Dot.ofSprite 0 0 rows do
    let column ← fit 64 (x + offset.x)
    let row ← fit 64 (y + offset.y)
    let cleared ← xorAt column row offset.bit
    collision := collision || cleared
  return collision

/-- The pixel in column `x` of row `y`, if there is one. -/
def pixel? (x y : Nat) : Routine (List Bool) (Option Bool) := do
  match ← (place x y).attempt with
  | none => return none
  | some k => return some (← Routine.item k)

variable {p q : Picture} {x y : Nat} {bit cleared : Bool} {fault : Fault}

theorem meets_place (hx : x < 64) (hy : y < 32) :
    Meets Picture.pixels (place x y) p ⟨p, .ok (64 * y + x)⟩ := by
  rw [place, if_neg (by omega)]
  refine (Routine.meets_check (fit_of_lt (by omega))).bind (Routine.meets_check ?_)
  rw [fit_of_lt (by omega), Nat.mul_comm]

theorem meets_place_error (h : ¬(x < 64 ∧ y < 32)) :
    Meets Picture.pixels (place x y) p ⟨p, .error (.outOfRange (.pixel x y))⟩ := by
  rw [place, if_pos (by omega)]
  exact Routine.meets_fail

theorem meets_xorAt_ok (h : p.xorAt x y bit = .ok (q, cleared)) :
    Meets Picture.pixels (xorAt x y bit) p ⟨q, .ok cleared⟩ := by
  obtain ⟨hx, hy⟩ := Picture.inside_of_xorAt h
  obtain ⟨lit, hlit⟩ := Option.isSome_iff_exists.1 (Picture.isSome_pixel? (p := p).2 ⟨hx, hy⟩)
  have hafter := Picture.pixel?_xorAt h x y
  rw [if_pos ⟨rfl, rfl⟩, hlit, Option.map_some] at hafter
  have hitem := (p.getElem?_pixels_of_lt hx y).trans hlit
  have hchanged := (q.getElem?_pixels_of_lt hx y).trans hafter
  have hk := (List.getElem?_eq_some_iff.1 hitem).1
  have hcleared : cleared = (lit && !(lit ^^ bit)) := by
    rw [Picture.cleared_of_xorAt h, hlit]
    cases lit <;> cases bit <;> rfl
  rw [hcleared]
  exact (meets_place hx hy).bind <| (Routine.meets_item hitem).bind <|
    (Routine.meets_replace hk (Picture.pixels_xorAt h hlit)).bind <|
      (Routine.meets_item hchanged).bind Routine.meets_pure

theorem meets_xorAt_error (h : p.xorAt x y bit = .error fault) :
    Meets Picture.pixels (xorAt x y bit) p ⟨p, .error fault⟩ := by
  obtain ⟨hout, rfl⟩ := Picture.outside_of_xorAt h
  exact (meets_place_error hout).bind_error

theorem meets_xorAt (p : Picture) (x y : Nat) (bit : Bool) :
    Meets Picture.pixels (xorAt x y bit) p (p.stroke (.dot x y bit)) := by
  rw [Picture.stroke]
  split
  case h_1 fault h => exact meets_xorAt_error h
  case h_2 q cleared h => exact meets_xorAt_ok h

theorem meets_pixel? (p : Picture) (x y : Nat) :
    Meets Picture.pixels (pixel? x y) p ⟨p, .ok (p.pixel? x y)⟩ := by
  by_cases h : x < 64 ∧ y < 32
  · obtain ⟨lit, hlit⟩ := Option.isSome_iff_exists.1 (Picture.isSome_pixel?.2 h)
    rw [hlit]
    exact (meets_place h.1 h.2).attempt.bind <|
      (Routine.meets_item ((p.getElem?_pixels_of_lt h.1 y).trans hlit)).bind Routine.meets_pure
  · have hnone : p.pixel? x y = none := by
      rw [← Option.not_isSome_iff_eq_none, Picture.isSome_pixel?]
      exact h
    rw [hnone]
    exact (meets_place_error h).attempt.bind Routine.meets_pure

/-! ## The offsets of a sprite -/

theorem map_shift_ofSprite (x y : Nat) (rows : List UInt8) :
    (Dot.ofSprite 0 0 rows).map (Dot.shift x y) = Dot.ofSprite x y rows := by
  refine List.ext_getElem? fun k => ?_
  rw [List.getElem?_map, Dot.getElem?_ofSprite, Dot.getElem?_ofSprite, Option.map_map]
  simp only [Function.comp_def, Dot.shift, Nat.zero_add]

/-- The coordinates of a dot fit if the dots before it are in the picture. -/
theorem offset_lt {rows : List UInt8} {k : Nat} (hx : x < 2 ^ 64) (hy : y < 2 ^ 64)
    (hk : k < (Dot.ofSprite 0 0 rows).length)
    (hbefore : ∀ i, ∀ hi : i < k, ((Dot.ofSprite 0 0 rows)[i].shift x y).fault? = none) :
    x + (Dot.ofSprite 0 0 rows)[k].x < 2 ^ 64 ∧ y + (Dot.ofSprite 0 0 rows)[k].y < 2 ^ 64 := by
  have hplace : ∀ i, ∀ hi : i < (Dot.ofSprite 0 0 rows).length,
      (Dot.ofSprite 0 0 rows)[i].x = i % 8 ∧ (Dot.ofSprite 0 0 rows)[i].y = i / 8 := by
    intro i hi
    obtain ⟨row, -, hdot⟩ := Dot.getElem?_ofSprite_eq_some_iff.1 (List.getElem?_eq_getElem hi)
    rw [hdot]
    exact ⟨Nat.zero_add _, Nat.zero_add _⟩
  obtain ⟨hcolumn, hrow⟩ := hplace k hk
  rw [hcolumn, hrow]
  cases k with
  | zero => exact ⟨hx, hy⟩
  | succ k =>
    -- The dot before is in the picture, and this one is next to it or starts the next row.
    have hinside := Dot.fault?_eq_none_iff.1 (hbefore k (Nat.lt_succ_self k))
    obtain ⟨hcolumn, hrow⟩ := hplace k (Nat.lt_of_succ_lt hk)
    simp only [Dot.Inside, Dot.shift, hcolumn, hrow] at hinside
    omega

theorem meets_blit (p : Picture) (hx : x < 2 ^ 64) (hy : y < 2 ^ 64) (rows : List UInt8) :
    Meets Picture.pixels (blit x y rows) p (p.blit x y rows) := by
  -- The flag is no part of the list : the loop keeps it beside.
  let view : Picture × Bool → List Bool := fun drawn => drawn.1.pixels
  have hloop : Meets view (blit x y rows) (p, false) _ :=
    (Routine.meets_forIn view Prod.snd (Dot.shift x y) Picture.guarded_plot (Dot.ofSprite 0 0 rows)
      (p, false) fun k hk hbefore => ?_).bind_pure
  · rw [map_shift_ofSprite] at hloop
    exact hloop
  · obtain ⟨hcolumn, hrow⟩ := offset_lt hx hy hk hbefore
    constructor
    · intro drawn next hplot
      obtain ⟨q, cleared, hxor, rfl⟩ := Picture.xorAt_of_plot hplot
      have hdot : Meets view (xorAt _ _ _) drawn ⟨(q, drawn.2 || cleared), .ok cleared⟩ :=
        meets_xorAt_ok hxor
      exact (Routine.meets_check (fit_of_lt hcolumn)).bind <|
        (Routine.meets_check (fit_of_lt hrow)).bind <| hdot.bind Routine.meets_pure
    · intro drawn fault hplot
      have hdot : Meets view (xorAt _ _ _) drawn ⟨drawn, .error fault⟩ :=
        meets_xorAt_error (Picture.xorAt_of_plot_error hplot)
      exact (Routine.meets_check (fit_of_lt hcolumn)).bind <|
        (Routine.meets_check (fit_of_lt hrow)).bind <| hdot.bind_error

end Frame

/-! ## One stroke after the other -/

/-- The coordinates are numbers of 64 bits. -/
def Stroke.Addressable : Stroke → Prop
  | sprite x y _ => x < 2 ^ 64 ∧ y < 2 ^ 64
  | dot x y _ => x < 2 ^ 64 ∧ y < 2 ^ 64

namespace Frame

/-- Draws a stroke. -/
def stroke : Stroke → Routine (List Bool) Bool
  | .sprite x y rows => blit x y rows
  | .dot x y bit => xorAt x y bit

/-- Draws strokes one after the other, whether they fail or not. -/
def paint : List Stroke → Routine (List Bool) Unit
  | [] => return ()
  | s :: strokes => do
    let _ ← (stroke s).attempt
    paint strokes

theorem meets_stroke (p : Picture) {s : Stroke} (h : s.Addressable) :
    Meets Picture.pixels (stroke s) p (p.stroke s) := by
  cases s with
  | sprite x y rows => exact meets_blit p h.1 h.2 rows
  | dot x y bit => exact meets_xorAt p x y bit

theorem meets_paint : ∀ (p : Picture) (strokes : List Stroke), (∀ s ∈ strokes, s.Addressable) →
    Meets Picture.pixels (paint strokes) p ⟨p.paint strokes, .ok ()⟩
  | _, [], _ => Routine.meets_pure
  | p, s :: strokes, h => by
    obtain ⟨hs, hstrokes⟩ := List.forall_mem_cons.1 h
    exact (meets_stroke p hs).attempt.bind (meets_paint (p.stroke s).state strokes hstrokes)

end Frame

end Chip8
