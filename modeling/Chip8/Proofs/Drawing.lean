import Mathlib.Data.List.Nodup
import Chip8.Proofs.Faults
import Chip8.Proofs.Strokes

/-!
# Drawing as XOR

A sprite that is drawn lies over a part of the picture, and over each pixel there lies one of its
bits (`Dot.spriteBit`). Its dots come in the order of a scan, row by row and each row from the left
(`Dot.pairwise_ofSprite`), so no dot comes twice. Each pixel is therefore flipped at most once, a
collision can be read off the picture before the drawing (`Picture.collision_plots`), and what a
drawing that fails has drawn are the bits that lie before the pixel of the fault
(`Picture.pixel?_blit_of_error`).

`Picture.Drawn` says what a drawing that succeeds leaves. A drawing comes to just that
(`Picture.blit_eq_ok_iff`), and one that does not fit fails at the first pixel of the scan that is
outside the picture (`Picture.blit_xor`).
-/

namespace Chip8

namespace Dot

/-- The bit of a sprite with its corner in column `x` of row `y` that lies over the pixel in column
`i` of row `j`. Beside the sprite there is none, which counts as a bit that is not set. -/
def spriteBit (x y : Nat) (rows : List UInt8) (i j : Nat) : Bool :=
  decide (x ≤ i ∧ i < x + 8 ∧ y ≤ j) &&
    rows[j - y]?.any fun row => row.toNat.testBit (7 - (i - x))

theorem spriteBit_eq (x y : Nat) (rows : List UInt8) (i j : Nat) : spriteBit x y rows i j =
    if h : (x ≤ i ∧ i < x + 8) ∧ y ≤ j ∧ j < y + rows.length then
      rows[j - y].toNat.testBit (7 - (i - x))
    else false := by
  unfold spriteBit
  split
  case isTrue h =>
    rw [List.getElem?_eq_getElem (by omega), Option.any_some, decide_eq_true (by omega),
      Bool.true_and]
  case isFalse h =>
    by_cases hover : x ≤ i ∧ i < x + 8 ∧ y ≤ j
    · rw [List.getElem?_eq_none (by omega), Option.any_none, Bool.and_false]
    · rw [decide_eq_false hover, Bool.false_and]

/-- The order of a scan : row by row, each row from the left. -/
def Before (dot other : Dot) : Prop :=
  dot.y < other.y ∨ dot.y = other.y ∧ dot.x < other.x

variable {x y : Nat} {rows : List UInt8} {dot other : Dot}

theorem Before.asymm (h : dot.Before other) : ¬other.Before dot := by
  unfold Before at h ⊢
  omega

theorem Before.ne (h : dot.Before other) : dot ≠ other := by
  rintro rfl
  exact h.asymm h

/-- The elements in front of a dot, where dots come in the order of a scan. -/
theorem mem_before_iff {before behind : List Dot}
    (h : (before ++ dot :: behind).Pairwise Before) :
    other ∈ before ↔ other ∈ before ++ dot :: behind ∧ other.Before dot := by
  obtain ⟨-, hrest, hcross⟩ := List.pairwise_append.1 h
  refine ⟨fun ho => ⟨List.mem_append_left _ ho, hcross other ho dot List.mem_cons_self⟩, ?_⟩
  rintro ⟨ho, hb⟩
  rcases List.mem_append.1 ho with ho | ho
  · exact ho
  · rcases List.mem_cons.1 ho with rfl | ho
    · exact (hb.asymm hb).elim
    · exact (hb.asymm ((List.pairwise_cons.1 hrest).1 other ho)).elim

/-! ## The dots of a sprite -/

theorem length_ofSprite (x y : Nat) (rows : List UInt8) :
    (ofSprite x y rows).length = 8 * rows.length := by
  have hrow : ∀ row : UInt8 × Nat, (ofRow x row.2 row.1).length = 8 := fun row => by simp [ofRow]
  rw [ofSprite, length_flatMap_block hrow, List.length_zipIdx]

/-- The dot at a place of the scan. -/
theorem getElem?_ofSprite_eq_some_iff {k : Nat} : (ofSprite x y rows)[k]? = some dot ↔
    ∃ row, rows[k / 8]? = some row ∧
      dot = ⟨x + k % 8, y + k / 8, row.toNat.testBit (7 - k % 8)⟩ := by
  rw [getElem?_ofSprite, Option.map_eq_some_iff]
  simp only [eq_comm]

theorem exists_getElem?_ofSprite {k : Nat} (h : k < 8 * rows.length) :
    ∃ bit, (ofSprite x y rows)[k]? = some ⟨x + k % 8, y + k / 8, bit⟩ := by
  have hrow : k / 8 < rows.length := by omega
  exact ⟨_, getElem?_ofSprite_eq_some_iff.2 ⟨_, List.getElem?_eq_getElem hrow, rfl⟩⟩

theorem pairwise_ofSprite (x y : Nat) (rows : List UInt8) :
    (ofSprite x y rows).Pairwise Before := by
  refine List.pairwise_iff_getElem.2 fun a b ha hb hab => ?_
  obtain ⟨_, _, hfirst⟩ := getElem?_ofSprite_eq_some_iff.1 (List.getElem?_eq_getElem ha)
  obtain ⟨_, _, hsecond⟩ := getElem?_ofSprite_eq_some_iff.1 (List.getElem?_eq_getElem hb)
  rw [hfirst, hsecond]
  unfold Before
  simp only
  omega

theorem nodup_ofSprite (x y : Nat) (rows : List UInt8) : (ofSprite x y rows).Nodup :=
  (pairwise_ofSprite x y rows).imp Before.ne

/-- The dots that are set are those where a set bit lies over the pixel. -/
theorem mem_ofSprite_iff {i j : Nat} :
    (⟨i, j, true⟩ : Dot) ∈ ofSprite x y rows ↔ spriteBit x y rows i j = true := by
  rw [List.mem_iff_getElem?]
  simp only [getElem?_ofSprite_eq_some_iff, Dot.mk.injEq, spriteBit, Bool.and_eq_true,
    decide_eq_true_eq, Option.any_eq_true]
  constructor
  · rintro ⟨k, row, hrow, rfl, rfl, hbit⟩
    refine ⟨by omega, row, ?_, ?_⟩
    · rwa [Nat.add_sub_cancel_left]
    · rwa [Nat.add_sub_cancel_left, eq_comm]
  · rintro ⟨⟨hleft, hright, htop⟩, row, hrow, hbit⟩
    have hplace : (8 * (j - y) + (i - x)) / 8 = j - y := by omega
    have hcolumn : (8 * (j - y) + (i - x)) % 8 = i - x := by omega
    refine ⟨8 * (j - y) + (i - x), row, ?_, by omega, by omega, ?_⟩
    · rwa [hplace]
    · rw [hcolumn, hbit]

/-! ## The pixel of the fault -/

/-- The fault of a drawing is the first pixel of the scan that is outside the picture. -/
theorem findSome?_ofSprite_eq_some_iff {fault : Fault} :
    (ofSprite x y rows).findSome? fault? = some fault ↔ ∃ k < 8 * rows.length,
      fault = .outOfRange (.pixel (x + k % 8) (y + k / 8)) ∧
        ¬(x + k % 8 < 64 ∧ y + k / 8 < 32) ∧
          ∀ earlier < k, x + earlier % 8 < 64 ∧ y + earlier / 8 < 32 := by
  rw [List.findSome?_eq_some_iff]
  constructor
  · rintro ⟨before, dot, behind, hdots, hdot, hbefore⟩
    obtain ⟨hout, rfl⟩ := fault?_eq_some_iff.1 hdot
    have hk : (ofSprite x y rows)[before.length]? = some dot := by simp [hdots]
    have hlt : before.length < 8 * rows.length := by
      rw [← length_ofSprite x y, hdots, List.length_append, List.length_cons]
      omega
    obtain ⟨row, -, rfl⟩ := getElem?_ofSprite_eq_some_iff.1 hk
    refine ⟨before.length, hlt, rfl, hout, fun earlier he => ?_⟩
    obtain ⟨bit, hbit⟩ := exists_getElem?_ofSprite (x := x) (y := y) (Nat.lt_trans he hlt)
    rw [hdots, List.getElem?_append_left he] at hbit
    exact fault?_eq_none_iff.1 (hbefore _ (List.mem_of_getElem? hbit))
  · rintro ⟨k, hk, rfl, hout, hearlier⟩
    obtain ⟨bit, hbit⟩ := exists_getElem?_ofSprite (x := x) (y := y) hk
    obtain ⟨hlt, hget⟩ := List.getElem?_eq_some_iff.1 hbit
    refine ⟨(ofSprite x y rows).take k, ⟨_, _, bit⟩, (ofSprite x y rows).drop (k + 1), ?_,
      fault?_eq_some_iff.2 ⟨hout, rfl⟩, fun dot hd => ?_⟩
    · rw [← hget, List.getElem_cons_drop, List.take_append_drop]
    · obtain ⟨e, hlt, rfl⟩ := List.mem_iff_getElem.1 hd
      have hek : e < k := Nat.lt_of_lt_of_le hlt (List.length_take_le k _)
      obtain ⟨row, -, hdot⟩ := getElem?_ofSprite_eq_some_iff.1
        (List.getElem?_eq_getElem (Nat.lt_of_lt_of_le hlt (List.length_take_le' k _)))
      rw [List.getElem_take, hdot]
      exact fault?_eq_none_iff.2 (hearlier e hek)

/-! ## Dots that do not come twice -/

theorem hits_eq_count (dots : List Dot) (i j : Nat) : hits dots i j = dots.count ⟨i, j, true⟩ := by
  refine List.countP_congr fun dot _ => ?_
  obtain ⟨a, b, bit⟩ := dot
  simp only [Bool.and_eq_true, decide_eq_true_eq, beq_iff_eq, Dot.mk.injEq, and_assoc]
  rw [eq_comm (a := i), eq_comm (a := j)]

/-- If no dot comes twice, a pixel is flipped exactly if one of them is there and set. -/
theorem parity_of_nodup {dots : List Dot} (h : dots.Nodup) (i j : Nat) :
    parity dots i j = decide ((⟨i, j, true⟩ : Dot) ∈ dots) := by
  rw [parity_eq_bodd, hits_eq_count, h.count]
  by_cases hmem : (⟨i, j, true⟩ : Dot) ∈ dots <;> simp [hmem]

end Dot

namespace Picture

variable {p q : Picture} {x y : Nat} {rows : List UInt8} {collision : Bool}

/-- A dot raises the collision flag if it is set and its pixel is lit. -/
theorem collision_plot {dot : Dot} {next : Bool} (h : plot (p, collision) dot = .ok (q, next)) :
    next = true ↔ collision = true ∨ p.pixel? dot.x dot.y = some true ∧ dot.bit = true := by
  unfold plot at h
  cases hx : p.xorAt dot.x dot.y dot.bit with
  | error => simp [hx, Except.map] at h
  | ok after =>
    obtain ⟨-, rfl⟩ := Prod.mk.inj (Except.ok.inj (hx ▸ h))
    rw [cleared_of_xorAt hx, Bool.or_eq_true, Bool.and_eq_true]
    cases p.pixel? dot.x dot.y <;> simp

/-- Dots in the picture that do not come twice put out a lit pixel exactly if one of them is set and
its pixel is lit at the beginning. -/
theorem collision_plots : ∀ (dots : List Dot) (p : Picture) (collision : Bool), dots.Nodup →
    (∀ dot ∈ dots, dot.Inside) →
      ((Outcome.each plot (p, collision) dots).state.2 = true ↔
        collision = true ∨ ∃ i j, p.pixel? i j = some true ∧ (⟨i, j, true⟩ : Dot) ∈ dots)
  | [], p, collision, _, _ => by simp
  | ⟨x, y, bit⟩ :: dots, p, collision, hnodup, hinside => by
    obtain ⟨hnew, hnodup⟩ := List.nodup_cons.1 hnodup
    obtain ⟨hdot, hinside⟩ := List.forall_mem_cons.1 hinside
    obtain ⟨⟨q, next⟩, hnext⟩ :=
      guarded_plot.allow (Dot.fault?_eq_none_iff.2 hdot) (p, collision)
    -- A set dot among the later ones finds its pixel as it was, for the first is another dot.
    have hkept : ∀ i j, (⟨i, j, true⟩ : Dot) ∈ dots → q.pixel? i j = p.pixel? i j := by
      intro i j hmem
      rw [pixel?_plot i j hnext, Dot.flip]
      split
      case isTrue hat =>
        obtain ⟨rfl, rfl⟩ := hat
        cases bit with
        | true => exact (hnew hmem).elim
        | false => simp
      case isFalse => rfl
    rw [Outcome.each_cons_ok hnext, collision_plots dots q next hnodup hinside,
      collision_plot hnext]
    simp only [List.mem_cons, Dot.mk.injEq]
    constructor
    · rintro ((hc | ⟨hlit, rfl⟩) | ⟨i, j, hlit, hmem⟩)
      · exact Or.inl hc
      · exact Or.inr ⟨x, y, hlit, Or.inl ⟨rfl, rfl, rfl⟩⟩
      · exact Or.inr ⟨i, j, hkept i j hmem ▸ hlit, Or.inr hmem⟩
    · rintro (hc | ⟨i, j, hlit, ⟨rfl, rfl, rfl⟩ | hmem⟩)
      · exact Or.inl (Or.inl hc)
      · exact Or.inl (Or.inr ⟨hlit, rfl⟩)
      · exact Or.inr ⟨i, j, (hkept i j hmem).trans hlit, hmem⟩

/-! ## What a drawing leaves -/

/-- What a drawing that succeeds comes to. The sprite fits, each pixel is XORed with the bit over
it, and a collision is reported if a set bit lies over a pixel that is lit before. -/
structure Drawn (p : Picture) (x y : Nat) (rows : List UInt8) (q : Picture) (collision : Bool) :
    Prop where
  fits : rows = [] ∨ x ≤ 56 ∧ y + rows.length ≤ 32
  pixel : ∀ i j, q.pixel? i j = (p.pixel? i j).map (· ^^ Dot.spriteBit x y rows i j)
  collision_iff : collision = true ↔
    ∃ i j, p.pixel? i j = some true ∧ Dot.spriteBit x y rows i j = true

theorem findSome?_ofSprite_eq_none_iff : (Dot.ofSprite x y rows).findSome? Dot.fault? = none ↔
    rows = [] ∨ x ≤ 56 ∧ y + rows.length ≤ 32 := by
  rw [Dot.findSome?_ofSprite, Dot.spriteFault?, ← List.length_eq_zero_iff]
  split <;> simp_all

theorem blit_ok_iff : (∃ collision, (p.blit x y rows).result = .ok collision) ↔
    rows = [] ∨ x ≤ 56 ∧ y + rows.length ≤ 32 := by
  rw [← findSome?_ofSprite_eq_none_iff]
  cases hf : (Dot.ofSprite x y rows).findSome? Dot.fault? with
  | some fault => simp [(p.blit_error_iff x y rows fault).2 hf]
  | none =>
    cases hr : (p.blit x y rows).result with
    | ok => simp
    | error fault => simp [(p.blit_error_iff x y rows fault).1 hr] at hf

theorem flag_of_blit (h : p.blit x y rows = ⟨q, .ok collision⟩) :
    (Outcome.each plot (p, false) (Dot.ofSprite x y rows)).state.2 = collision := by
  have hr := congrArg Outcome.result h
  simp only [blit] at hr
  cases hd : (Outcome.each plot (p, false) (Dot.ofSprite x y rows)).result with
  | error => simp [hd, Except.map] at hr
  | ok => exact Except.ok.inj (hd ▸ hr)

theorem drawn_of_blit (h : p.blit x y rows = ⟨q, .ok collision⟩) :
    p.Drawn x y rows q collision := by
  have hfits := blit_ok_iff.1 ⟨collision, congrArg Outcome.result h⟩
  have hnone := findSome?_ofSprite_eq_none_iff.2 hfits
  have hnodup := Dot.nodup_ofSprite x y rows
  rcases Outcome.sound_cases Dot.fault? (Dot.ofSprite x y rows) with ⟨hall, hsound, -⟩ |
    ⟨-, -, -, fault, -, -, -, -, hsome⟩
  · refine ⟨hfits, fun i j => ?_, ?_⟩
    · have hpixel := p.pixel?_blit x y rows i j
      rw [h, plotted, hsound, Dot.parity_of_nodup hnodup] at hpixel
      simpa only [Dot.mem_ofSprite_iff, Bool.decide_eq_true] using hpixel
    · have hflag := collision_plots _ p false hnodup fun dot hd =>
        Dot.fault?_eq_none_iff.1 (hall dot hd)
      simp only [Dot.mem_ofSprite_iff, Bool.false_eq_true, false_or] at hflag
      rw [← hflag, flag_of_blit h]
  · exact nomatch hnone.symm.trans hsome

/-- The drawing of a sprite and what it comes to determine each other. -/
theorem blit_eq_ok_iff :
    p.blit x y rows = ⟨q, .ok collision⟩ ↔ p.Drawn x y rows q collision := by
  refine ⟨drawn_of_blit, fun h => ?_⟩
  obtain ⟨other, hr⟩ := (blit_ok_iff (p := p)).2 h.fits
  have hb : p.blit x y rows = ⟨(p.blit x y rows).state, .ok other⟩ := by rw [← hr]
  have h' := drawn_of_blit hb
  rw [hb, eq_of_pixel? fun i j => (h'.pixel i j).trans (h.pixel i j).symm,
    Bool.eq_iff_iff.2 (h'.collision_iff.trans h.collision_iff.symm)]

/-- A drawing that fails has drawn the bits that lie before the pixel of the fault. -/
theorem pixel?_blit_of_error {i j fx fy : Nat}
    (h : (p.blit x y rows).result = .error (.outOfRange (.pixel fx fy))) :
    (p.blit x y rows).state.pixel? i j = (p.pixel? i j).map
      (· ^^ (Dot.spriteBit x y rows i j && decide (j < fy ∨ j = fy ∧ i < fx))) := by
  have hsome := (p.blit_error_iff x y rows _).1 h
  rcases Outcome.sound_cases Dot.fault? (Dot.ofSprite x y rows) with ⟨-, -, hnone⟩ |
    ⟨before, dot, behind, fault, hdots, -, hdot, hsound, hfault⟩
  · exact nomatch hnone.symm.trans hsome
  · obtain ⟨-, hplace⟩ := Dot.fault?_eq_some_iff.1 (hdot.trans (hfault.symm.trans hsome))
    obtain ⟨rfl, rfl⟩ := Place.pixel.inj (Fault.outOfRange.inj hplace)
    have hpairwise := hdots ▸ Dot.pairwise_ofSprite x y rows
    have hnodup : before.Nodup := (List.pairwise_append.1 hpairwise).1.imp Dot.Before.ne
    have hmem : (⟨i, j, true⟩ : Dot) ∈ before ↔
        Dot.spriteBit x y rows i j = true ∧ (j < dot.y ∨ j = dot.y ∧ i < dot.x) := by
      rw [Dot.mem_before_iff hpairwise, ← hdots, Dot.mem_ofSprite_iff, Dot.Before]
    rw [pixel?_blit, plotted, hsound, Dot.parity_of_nodup hnodup, decide_eq_decide.2 hmem,
      Bool.decide_and, Bool.decide_eq_true]

/-- Drawing is XOR with the sprite, the most significant bit of each row leftmost. It fails exactly
if some pixel under the sprite is outside the picture, with the first of them row by row. -/
theorem blit_xor (p : Picture) (x y : Nat) (rows : List UInt8) :
    ((∃ collision, (p.blit x y rows).result = .ok collision) ↔
      rows = [] ∨ x ≤ 56 ∧ y + rows.length ≤ 32) ∧
    (∀ q collision, p.blit x y rows = ⟨q, .ok collision⟩ →
      (∀ i j, q.pixel? i j =
        if h : (x ≤ i ∧ i < x + 8) ∧ y ≤ j ∧ j < y + rows.length then
          (p.pixel? i j).map (· ^^ rows[j - y].toNat.testBit (7 - (i - x)))
        else p.pixel? i j) ∧
      (collision = true ↔ ∃ i j, p.pixel? i j = some true ∧
        ∃ h : (x ≤ i ∧ i < x + 8) ∧ y ≤ j ∧ j < y + rows.length,
          rows[j - y].toNat.testBit (7 - (i - x)) = true)) ∧
    ∀ fault, (p.blit x y rows).result = .error fault ↔ ∃ k < 8 * rows.length,
      fault = .outOfRange (.pixel (x + k % 8) (y + k / 8)) ∧
        ¬(x + k % 8 < 64 ∧ y + k / 8 < 32) ∧
          ∀ earlier < k, x + earlier % 8 < 64 ∧ y + earlier / 8 < 32 := by
  refine ⟨blit_ok_iff, fun q collision h => ?_, fun fault => ?_⟩
  · have hd := drawn_of_blit h
    refine ⟨fun i j => ?_, hd.collision_iff.trans ?_⟩
    · rw [hd.pixel, Dot.spriteBit_eq]
      split
      · rfl
      · simp
    · refine exists_congr fun i => exists_congr fun j => and_congr_right fun _ => ?_
      rw [Dot.spriteBit_eq]
      split
      case isTrue h => exact ⟨fun hbit => ⟨h, hbit⟩, fun ⟨_, hbit⟩ => hbit⟩
      case isFalse h => exact ⟨nofun, fun ⟨hover, _⟩ => (h hover).elim⟩
  · rw [blit_error_iff, Dot.findSome?_ofSprite_eq_some_iff]

/-- Two rows in the lower right corner, drawn over the pixel in the corner itself, and a row that
begins one column further to the right. -/
theorem blit_xor_corner :
    let p := Picture.blank.paint [.dot 63 31 true]
    ∃ q, p.blit 56 30 [0x81, 0x03] = ⟨q, .ok true⟩ ∧ q.pixel? 56 30 = some true ∧
      q.pixel? 62 31 = some true ∧ q.pixel? 63 31 = some false ∧ q.pixel? 55 30 = some false ∧
        (q.blit 57 30 [0x81]).result = .error (.outOfRange (.pixel 64 30)) := by
  intro p
  have hp : ∀ i j, p.pixel? i j =
      if i = 63 ∧ j = 31 then (blank.pixel? i j).map (· ^^ true) else blank.pixel? i j :=
    fun i j => pixel?_xorAt rfl i j
  obtain ⟨hfits, hdrawn, -⟩ := blit_xor p 56 30 [0x81, 0x03]
  obtain ⟨collision, hr⟩ := hfits.2 (Or.inr (by decide))
  obtain ⟨hpixel, hcollision⟩ := hdrawn (p.blit 56 30 [0x81, 0x03]).state collision (by rw [← hr])
  obtain rfl : collision = true :=
    hcollision.2 ⟨63, 31, by rw [hp]; rfl, by decide, by decide⟩
  refine ⟨(p.blit 56 30 [0x81, 0x03]).state, by rw [← hr], ?_, ?_, ?_, ?_,
    ((blit_xor _ 57 30 [0x81]).2.2 _).2 ⟨7, by decide, rfl, by decide, by decide⟩⟩ <;>
    (rw [hpixel, hp]; rfl)

end Picture

end Chip8
