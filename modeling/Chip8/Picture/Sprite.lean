import Chip8.Outcome
import Chip8.Picture

/-!
# Sprites

A sprite is a list of bytes, one for each row, the most significant bit leftmost. Drawing it
(`Picture.blit`) XORs its dots into the picture row by row, each row from the left, and
reports a collision when some lit pixel went dark. A dot outside the picture ends the drawing;
the dots before it stay (`Outcome.each`).
-/

namespace Chip8

/-- A bit and the pixel it goes to. -/
structure Dot where
  x : Nat
  y : Nat
  bit : Bool
  deriving DecidableEq

/-- The dots of a byte in row `y`, from column `x` on. -/
def Dot.ofRow (x y : Nat) (row : UInt8) : List Dot :=
  (List.range 8).map fun j => ⟨x + j, y, row.toNat.testBit (7 - j)⟩

/-- The dots of a sprite with its corner at column `x` of row `y`, in the order in which they
are drawn. -/
def Dot.ofSprite (x y : Nat) (sprite : List UInt8) : List Dot :=
  (sprite.zipIdx y).flatMap fun row => Dot.ofRow x row.2 row.1

namespace Picture

/-- XORs a dot into a picture, and keeps a raised collision flag up. -/
def plot (drawn : Picture × Bool) (dot : Dot) : Except Fault (Picture × Bool) :=
  (drawn.1.xorAt dot.x dot.y dot.bit).map fun (p, cleared) => (p, drawn.2 || cleared)

/-- Draws a sprite with its corner at column `x` of row `y`. The value is the collision flag. -/
def blit (p : Picture) (x y : Nat) (sprite : List UInt8) : Outcome Picture Bool :=
  let drawn := Outcome.each plot (p, false) (Dot.ofSprite x y sprite)
  ⟨drawn.state.1, drawn.result.map fun () => drawn.state.2⟩

end Picture

end Chip8
