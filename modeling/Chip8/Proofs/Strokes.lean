import Mathlib.Data.Nat.Bits
import Chip8.Proofs.Blocks
import Chip8.Proofs.Picture

/-!
# Drawing in any order

A picture is changed by sprites and by single dots (`Stroke`). Each of them draws its dots, row by
row, up to the first that is outside the picture, and fails with that one if there is one
(`Stroke.Draws`). Which dots these are, and whether it fails, lies in the stroke alone.

A dot that is set flips its pixel. After any strokes, failing ones among them, a pixel is thus what
it was before, flipped if an odd number of the drawn dots is set and falls on it
(`Picture.pixel?_paint`). The order of the strokes does not matter for that, nor for what each of
them comes to, and strokes that are drawn twice, in whatever orders, leave the picture as it was
(`Picture.paint_perm`).
-/

namespace Chip8

namespace Dot

/-- The dot is in the picture. -/
def Inside (dot : Dot) : Prop := dot.x < 64 ∧ dot.y < 32

theorem fault?_eq_none_iff {dot : Dot} : dot.fault? = none ↔ dot.Inside := by
  unfold fault? Inside
  split <;> simp_all

theorem fault?_eq_some_iff {dot : Dot} {fault : Fault} :
    dot.fault? = some fault ↔ ¬dot.Inside ∧ fault = .outOfRange (.pixel dot.x dot.y) := by
  unfold fault? Inside
  split <;> simp_all [eq_comm]

/-- The number of dots that are set and in column `x` of row `y`. -/
def hits (dots : List Dot) (x y : Nat) : Nat :=
  dots.countP fun dot => decide (x = dot.x ∧ y = dot.y) && dot.bit

theorem hits_append (dots later : List Dot) (x y : Nat) :
    hits (dots ++ later) x y = hits dots x y + hits later x y :=
  List.countP_append

theorem parity_eq_bodd (dots : List Dot) (x y : Nat) : parity dots x y = (hits dots x y).bodd := by
  have hfold : ∀ odd : Bool, dots.foldl
      (fun odd dot => odd ^^ (decide (x = dot.x ∧ y = dot.y) && dot.bit)) odd =
        (odd ^^ (hits dots x y).bodd) := by
    induction dots with
    | nil => simp [hits]
    | cons dot dots ih =>
      intro odd
      rw [List.foldl_cons, ih, hits, hits, List.countP_cons, Nat.bodd_add, Bool.xor_assoc]
      cases decide (x = dot.x ∧ y = dot.y) && dot.bit <;> simp [Bool.xor_comm]
  exact (hfold false).trans (Bool.false_xor _)

/-- The dots of a sprite row by row, each row from the most significant bit on. -/
theorem getElem?_ofSprite (x y : Nat) (rows : List UInt8) (k : Nat) :
    (ofSprite x y rows)[k]? =
      rows[k / 8]?.map fun row => ⟨x + k % 8, y + k / 8, row.toNat.testBit (7 - k % 8)⟩ := by
  have hk : k % 8 < 8 := Nat.mod_lt k (by decide)
  rw [ofSprite, getElem?_flatMap_block (by decide : 0 < 8) fun row => by simp [ofRow],
    List.getElem?_zipIdx]
  cases rows[k / 8]? <;> simp [ofRow, hk]

end Dot

/-- Something that is drawn : a sprite with its corner in column `x` of row `y`, a byte for each
row, or a single dot there. -/
inductive Stroke where
  | sprite (x y : Nat) (rows : List UInt8)
  | dot (x y : Nat) (bit : Bool)
  deriving DecidableEq

namespace Stroke

/-- The dots of a stroke, in the order in which they are drawn. -/
def dots : Stroke → List Dot
  | sprite x y rows => Dot.ofSprite x y rows
  | dot x y bit => [⟨x, y, bit⟩]

/-- The dots of a stroke before the first that is outside the picture. -/
def drawn (s : Stroke) : List Dot := Outcome.sound Dot.fault? s.dots

/-- What a stroke comes to : the fault of its first dot outside the picture, if it has one. -/
def answer (s : Stroke) : Except Fault Unit :=
  (s.dots.findSome? Dot.fault?).elim (.ok ()) .error

/-- The dots that a stroke draws, and what it comes to. -/
inductive Draws (s : Stroke) : List Dot → Except Fault Unit → Prop where
  /-- All dots are in the picture and are drawn. -/
  | whole (h : ∀ dot ∈ s.dots, dot.Inside) : Draws s s.dots (.ok ())
  /-- The dots before the first that is outside are drawn, and that one is reported. -/
  | cut {before behind : List Dot} {dot : Dot} (h : s.dots = before ++ dot :: behind)
    (hbefore : ∀ other ∈ before, other.Inside) (hdot : ¬dot.Inside) :
    Draws s before (.error (.outOfRange (.pixel dot.x dot.y)))

theorem draws (s : Stroke) : s.Draws s.drawn s.answer := by
  unfold drawn answer
  rcases Outcome.sound_cases Dot.fault? s.dots with ⟨hall, hs, hf⟩ |
    ⟨before, dot, behind, fault, hdots, hall, hdot, hs, hf⟩
  · rw [hs, hf]
    exact .whole fun dot hd => Dot.fault?_eq_none_iff.1 (hall dot hd)
  · obtain ⟨hout, rfl⟩ := Dot.fault?_eq_some_iff.1 hdot
    rw [hs, hf]
    exact .cut hdots (fun other ho => Dot.fault?_eq_none_iff.1 (hall other ho)) hout

end Stroke

namespace Picture

/-- Draws a stroke. The value is whether a lit pixel went dark. -/
def stroke (p : Picture) : Stroke → Outcome Picture Bool
  | .sprite x y rows => p.blit x y rows
  | .dot x y bit =>
    match p.xorAt x y bit with
    | .error fault => ⟨p, .error fault⟩
    | .ok (q, cleared) => ⟨q, .ok cleared⟩

/-- The picture after strokes that are drawn one after the other, whether they fail or not. -/
def paint (p : Picture) (strokes : List Stroke) : Picture :=
  strokes.foldl (fun p s => (p.stroke s).state) p

/-- Whether each of these strokes succeeds, and with which fault it fails. -/
def answers (p : Picture) : List Stroke → List (Except Fault Unit)
  | [] => []
  | s :: strokes =>
    (p.stroke s).result.map (fun _ => ()) :: (p.stroke s).state.answers strokes

/-- Any stroke is the plotting of its dots. -/
theorem stroke_eq_plots (p : Picture) (s : Stroke) :
    p.stroke s = ⟨(Outcome.each plot (p, false) s.dots).state.1,
      (Outcome.each plot (p, false) s.dots).result.map fun () =>
        (Outcome.each plot (p, false) s.dots).state.2⟩ := by
  cases s with
  | sprite x y rows => rfl
  | dot x y bit =>
    have hplot : plot (p, false) ⟨x, y, bit⟩ = p.xorAt x y bit := by
      cases h : p.xorAt x y bit <;> simp [plot, h, Except.map]
    simp only [stroke, Stroke.dots]
    cases h : p.xorAt x y bit with
    | error fault =>
      rw [Outcome.each_cons_error (hplot.trans h)]
      rfl
    | ok next =>
      rw [Outcome.each_cons_ok (hplot.trans h)]
      rfl

/-- What a stroke comes to does not depend on the picture. -/
theorem result_stroke (p : Picture) (s : Stroke) :
    (p.stroke s).result.map (fun _ => ()) = s.answer := by
  have hr := guarded_plot.result_each (p, false) s.dots
  rw [stroke_eq_plots, hr, Stroke.answer]
  cases s.dots.findSome? Dot.fault? <;> rfl

/-- A stroke flips each pixel as often as set dots that it draws fall on it. -/
theorem pixel?_stroke (p : Picture) (s : Stroke) (x y : Nat) :
    (p.stroke s).state.pixel? x y =
      (p.pixel? x y).map (· ^^ (Dot.hits s.drawn x y).bodd) := by
  rw [stroke_eq_plots, pixel?_plots, Dot.parity_eq_bodd]
  rfl

/-! ## One stroke after the other -/

theorem answers_eq_map : ∀ (p : Picture) (strokes : List Stroke),
    p.answers strokes = strokes.map Stroke.answer
  | _, [] => rfl
  | p, s :: strokes => by
    rw [answers, result_stroke, answers_eq_map (p.stroke s).state strokes, List.map_cons]

/-- Strokes flip each pixel as often as set dots that they draw fall on it. -/
theorem pixel?_paint : ∀ (p : Picture) (strokes : List Stroke) (x y : Nat),
    (p.paint strokes).pixel? x y =
      (p.pixel? x y).map (· ^^ (Dot.hits (strokes.flatMap Stroke.drawn) x y).bodd)
  | p, [], x, y => by simp [paint, Dot.hits]
  | p, s :: strokes, x, y => by
    rw [paint, List.foldl_cons, ← paint, pixel?_paint (p.stroke s).state strokes, pixel?_stroke,
      List.flatMap_cons, Dot.hits_append, Nat.bodd_add, Option.map_map]
    simp only [Function.comp_def, Bool.xor_assoc]

theorem hits_flatMap_perm {strokes other : List Stroke} (h : strokes.Perm other) (x y : Nat) :
    Dot.hits (other.flatMap Stroke.drawn) x y = Dot.hits (strokes.flatMap Stroke.drawn) x y :=
  ((h.flatMap_right Stroke.drawn).countP_eq _).symm

/-- Drawing does not depend on the order and takes itself back, also where strokes fail : a pixel is
flipped if an odd number of the dots that are drawn is set and falls on it. -/
theorem paint_perm (p : Picture) (strokes : List Stroke) :
    (∀ x y rows k, (Stroke.sprite x y rows).dots[k]? = rows[k / 8]?.map fun row =>
      ⟨x + k % 8, y + k / 8, row.toNat.testBit (7 - k % 8)⟩) ∧
    (∀ s : Stroke, s.Draws s.drawn s.answer) ∧ p.answers strokes = strokes.map Stroke.answer ∧
    (∀ x y, (p.paint strokes).pixel? x y =
      (p.pixel? x y).map (· ^^ (Dot.hits (strokes.flatMap Stroke.drawn) x y).bodd)) ∧
    ∀ other, strokes.Perm other →
      p.paint other = p.paint strokes ∧
      (other.zip (p.answers other)).Perm (strokes.zip (p.answers strokes)) ∧
      (p.paint strokes).paint other = p := by
  refine ⟨Dot.getElem?_ofSprite, Stroke.draws, answers_eq_map p strokes,
    pixel?_paint p strokes, fun other h => ⟨?_, ?_, ?_⟩⟩
  · refine eq_of_pixel? fun x y => ?_
    rw [pixel?_paint, pixel?_paint, hits_flatMap_perm h]
  · rw [answers_eq_map, answers_eq_map, ← List.map_prod_left_eq_zip, ← List.map_prod_left_eq_zip]
    exact (h.map _).symm
  · refine eq_of_pixel? fun x y => ?_
    rw [pixel?_paint, pixel?_paint, hits_flatMap_perm h]
    simp [Function.comp_def]

/-- Strokes that cross the right edge and the lower edge, and a dot far outside, drawn on a glyph
forwards and backwards. -/
theorem paint_perm_edges :
    let p := Picture.blank.paint [.sprite 60 30 [0xF0]]
    let strokes : List Stroke := [.sprite 60 30 [0xA0, 0xFF], .dot 61 30 true,
      .dot 0xFFFFFFFFFFFFFFFF 0 true, .sprite 0 31 [0xFF, 0xFF]]
    strokes.Perm strokes.reverse ∧ p.paint strokes.reverse = p.paint strokes ∧
      (p.paint strokes).paint strokes.reverse = p ∧
      p.answers strokes = [.error (.outOfRange (.pixel 64 30)), .ok (),
        .error (.outOfRange (.pixel 0xFFFFFFFFFFFFFFFF 0)), .error (.outOfRange (.pixel 0 32))] ∧
      (p.paint strokes).pixel? 60 30 = some false ∧ (p.paint strokes).pixel? 61 30 = some false ∧
        (p.paint strokes).pixel? 63 30 = some true ∧ (p.paint strokes).pixel? 7 31 = some true := by
  intro p strokes
  have hperm : strokes.Perm strokes.reverse := strokes.reverse_perm.symm
  obtain ⟨-, -, -, -, hother⟩ := paint_perm p strokes
  obtain ⟨hsame, -, htwice⟩ := hother _ hperm
  refine ⟨hperm, hsame, htwice, ?_, ?_⟩
  · rw [answers_eq_map]
    rfl
  · decide +kernel

end Picture

end Chip8
