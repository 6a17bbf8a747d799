import Chip8.Picture.Sprite
import Chip8.Proofs.Guarded

/-!
# Pixels after drawing

A dot fails for where it is, whatever the picture holds (`guarded_plot`), so what dots do to a
picture that are plotted one after the other is known before they begin : each pixel is flipped once
for every set dot on it that comes before the first dot outside (`Picture.pixel?_plots`). The dots
of a drawing are such dots (`Picture.pixel?_blit`). Whether the drawing fails, and with what, does
not depend on the picture either (`Picture.blit_error_iff`), and drawing the same sprite at the same
place again takes it back, also if both drawings fail (`Picture.blit_twice`).
-/

namespace Chip8

/-- The fault of a dot : it has one if it is outside the picture. -/
def Dot.fault? (dot : Dot) : Option Fault :=
  if dot.x < Picture.width ∧ dot.y < Picture.height then none
  else some (.outOfRange (.pixel dot.x dot.y))

/-- What a dot does to the pixel in column `x` of row `y` : it flips it if it is set and there. -/
def Dot.flip (x y : Nat) (dot : Dot) (pixel : Option Bool) : Option Bool :=
  if x = dot.x ∧ y = dot.y then pixel.map (· ^^ dot.bit) else pixel

/-- Whether an odd number of the dots is set and in column `x` of row `y`. -/
def Dot.parity (dots : List Dot) (x y : Nat) : Bool :=
  dots.foldl (fun odd dot => odd ^^ (decide (x = dot.x ∧ y = dot.y) && dot.bit)) false

theorem Dot.foldl_flip (x y : Nat) : ∀ (dots : List Dot) (pixel : Option Bool) (odd : Bool),
    dots.foldl (fun pixel dot => dot.flip x y pixel) (pixel.map (· ^^ odd)) =
      pixel.map (· ^^ dots.foldl
        (fun odd dot => odd ^^ (decide (x = dot.x ∧ y = dot.y) && dot.bit)) odd)
  | [], _, _ => rfl
  | dot :: dots, pixel, odd => by
    rw [List.foldl_cons, List.foldl_cons, ← Dot.foldl_flip x y dots]
    congr 1
    unfold Dot.flip
    by_cases h : x = dot.x ∧ y = dot.y
    · simp [h, Function.comp_def]
    · simp [h]

namespace Picture

/-- Pictures with the same pixels are equal. -/
theorem eq_of_pixel? {p q : Picture} (h : ∀ x y, p.pixel? x y = q.pixel? x y) : p = q := by
  obtain ⟨rows⟩ := p
  obtain ⟨others⟩ := q
  congr 1
  ext y hy x hx
  simpa [pixel?, hx, hy] using h x y

theorem guarded_plot : Outcome.Guarded Dot.fault? plot where
  refuse := by
    intro dot fault h drawn
    unfold Dot.fault? at h
    split at h
    · simp at h
    · rename_i hout
      obtain rfl := Option.some.inj h
      simp [plot, xorAt, hout, Except.map]
  allow := by
    intro dot h drawn
    unfold Dot.fault? at h
    split at h
    · rename_i hin
      simp [plot, xorAt, hin, Except.map]
    · simp at h

theorem pixel?_plot (x y : Nat) {drawn next : Picture × Bool} {dot : Dot}
    (h : plot drawn dot = .ok next) :
    next.1.pixel? x y = dot.flip x y (drawn.1.pixel? x y) := by
  unfold plot at h
  cases hx : drawn.1.xorAt dot.x dot.y dot.bit with
  | error => simp [hx, Except.map] at h
  | ok after =>
    obtain rfl := Except.ok.inj (hx ▸ h)
    exact pixel?_xorAt hx x y

/-- Dots that are plotted one after the other flip each pixel as often as set ones fall on it, up to
the first dot outside the picture. -/
theorem pixel?_plots (p : Picture) (dots : List Dot) (i j : Nat) :
    (Outcome.each plot (p, false) dots).state.1.pixel? i j =
      (p.pixel? i j).map (· ^^ Dot.parity (Outcome.sound Dot.fault? dots) i j) := by
  have hview := guarded_plot.view_each (fun drawn => drawn.1.pixel? i j) (Dot.flip i j)
    (pixel?_plot i j) (p, false) dots
  have hflip := Dot.foldl_flip i j (Outcome.sound Dot.fault? dots) (p.pixel? i j) false
  simp only [Bool.bne_false, Option.map_id'] at hflip
  exact hview.trans hflip

/-- The dots of a drawing that are plotted : those before the first outside the picture. -/
def plotted (x y : Nat) (sprite : List UInt8) : List Dot :=
  Outcome.sound Dot.fault? (Dot.ofSprite x y sprite)

/-- A drawing flips each pixel as often as plotted dots that are set fall on it. -/
theorem pixel?_blit (p : Picture) (x y : Nat) (sprite : List UInt8) (i j : Nat) :
    (p.blit x y sprite).state.pixel? i j =
      (p.pixel? i j).map (· ^^ Dot.parity (plotted x y sprite) i j) :=
  p.pixel?_plots (Dot.ofSprite x y sprite) i j

/-- A drawing fails with the first dot outside the picture, whatever the picture. -/
theorem blit_error_iff (p : Picture) (x y : Nat) (sprite : List UInt8) (fault : Fault) :
    (p.blit x y sprite).result = .error fault ↔
      (Dot.ofSprite x y sprite).findSome? Dot.fault? = some fault := by
  have hr := guarded_plot.result_each (p, false) (Dot.ofSprite x y sprite)
  simp only [blit, hr]
  cases (Dot.ofSprite x y sprite).findSome? Dot.fault? <;> simp [Except.map]

/-- Drawing a sprite again at the same place takes it back. -/
theorem blit_twice (p : Picture) (x y : Nat) (sprite : List UInt8) :
    ((p.blit x y sprite).state.blit x y sprite).state = p := by
  refine eq_of_pixel? fun i j => ?_
  rw [pixel?_blit, pixel?_blit]
  simp [Function.comp_def]

end Picture

end Chip8
