import Mathlib.Algebra.BigOperators.Fin
import Mathlib.Data.Finset.SymmDiff
import Chip8.Proofs.Drawing

/-!
# Lit pixels

A picture seen as the set of its lit pixels (`Picture.litPixels`), and a sprite as the set of the
pixels under its set bits (`Dot.setPixels`). A drawing that succeeds leaves the symmetric difference
of the two (`Picture.Drawn.litPixels_eq`) and reports a collision if they meet
(`Picture.Drawn.collision_iff_nonempty`).

The lit pixels are as many as the set has elements (`Picture.card_litPixels`), and so are the set
bits of a sprite (`Dot.card_setPixels`), which makes the numbers before and after a drawing a matter
of counting sets (`Picture.lit_blit`).
-/

namespace Chip8

open Finset

/-- What is in just one of two sets is what is in each, without the common part. -/
theorem card_symmDiff_add {α : Type} [DecidableEq α] (s t : Finset α) :
    (symmDiff s t).card + 2 * (s ∩ t).card = s.card + t.card := by
  have hs := card_sdiff_add_card_inter s t
  have ht := card_sdiff_add_card_inter t s
  rw [inter_comm] at ht
  rw [symmDiff_def, sup_eq_union, card_union_of_disjoint disjoint_sdiff_sdiff]
  omega

namespace Dot

variable {x y : Nat} {rows : List UInt8}

/-- The number of set bits in the rows of a sprite. -/
def ones (rows : List UInt8) : Nat :=
  (rows.map fun row => (List.range 8).countP row.toNat.testBit).sum

/-- The pixels under the set bits of a sprite with its corner in column `x` of row `y`. -/
def setPixels (x y : Nat) (rows : List UInt8) : Finset (Nat × Nat) :=
  (((ofSprite x y rows).filter (·.bit)).map fun dot => (dot.x, dot.y)).toFinset

theorem mem_setPixels {i j : Nat} :
    (i, j) ∈ setPixels x y rows ↔ spriteBit x y rows i j = true := by
  rw [← mem_ofSprite_iff, setPixels, List.mem_toFinset, List.mem_map]
  constructor
  · rintro ⟨⟨i, j, bit⟩, hdot, rfl, rfl⟩
    obtain ⟨hmem, rfl⟩ := List.mem_filter.1 hdot
    exact hmem
  · exact fun h => ⟨⟨i, j, true⟩, List.mem_filter.2 ⟨h, rfl⟩, rfl⟩

/-- No two set bits of a sprite lie over the same pixel. -/
theorem card_filter_setPixels (x y : Nat) (rows : List UInt8) (kind : Nat × Nat → Bool) :
    ((setPixels x y rows).filter fun place => kind place).card =
      (ofSprite x y rows).countP fun dot => dot.bit && kind (dot.x, dot.y) := by
  have hplace : ∀ dot ∈ (ofSprite x y rows).filter (·.bit),
      ∀ other ∈ (ofSprite x y rows).filter (·.bit),
        (dot.x, dot.y) = (other.x, other.y) → dot = other := by
    rintro ⟨i, j, bit⟩ hdot ⟨i', j', bit'⟩ hother hsame
    obtain ⟨rfl, rfl⟩ := Prod.mk.inj hsame
    obtain rfl : bit = true := (List.mem_filter.1 hdot).2
    obtain rfl : bit' = true := (List.mem_filter.1 hother).2
    rfl
  have hnodup := ((nodup_ofSprite x y rows).filter (·.bit)).map_on hplace
  rw [setPixels, ← List.toFinset_filter, List.toFinset_card_of_nodup (hnodup.filter kind),
    ← List.countP_eq_length_filter, List.countP_map, List.countP_filter]
  simp only [Function.comp_def, Bool.and_comm]

theorem countP_ofRow (x y : Nat) (row : UInt8) :
    (ofRow x y row).countP (·.bit) = (List.range 8).countP row.toNat.testBit := by
  have hreverse : (List.range 8).map (7 - ·) = (List.range 8).reverse := by decide
  rw [← List.countP_reverse (l := List.range 8), ← hreverse, List.countP_map, ofRow,
    List.countP_map]
  rfl

theorem countP_ofSprite (x : Nat) : ∀ (y : Nat) (rows : List UInt8),
    (ofSprite x y rows).countP (·.bit) = ones rows
  | _, [] => rfl
  | y, row :: rows => by
    rw [ofSprite_cons, List.countP_append, countP_ofRow, countP_ofSprite x (y + 1) rows]
    rfl

theorem card_setPixels (x y : Nat) (rows : List UInt8) :
    (setPixels x y rows).card = ones rows := by
  have h := card_filter_setPixels x y rows fun _ => true
  simpa [countP_ofSprite] using h

end Dot

namespace Picture

variable {p q : Picture} {x y : Nat} {rows : List UInt8} {collision : Bool}

/-- The pixels that are lit. -/
def litPixels (p : Picture) : Finset (Nat × Nat) :=
  (range width ×ˢ range height).filter fun place => p.pixel? place.1 place.2 = some true

/-- The number of set bits of a sprite that lie over lit pixels. -/
def overlap (p : Picture) (x y : Nat) (rows : List UInt8) : Nat :=
  (Dot.ofSprite x y rows).countP fun dot => dot.bit && p.pixel? dot.x dot.y == some true

theorem isSome_pixel? {i j : Nat} : (p.pixel? i j).isSome ↔ i < width ∧ j < height := by
  by_cases hj : j < height <;> simp [pixel?, hj]

theorem mem_litPixels {i j : Nat} : (i, j) ∈ p.litPixels ↔ p.pixel? i j = some true := by
  rw [litPixels, mem_filter, mem_product, mem_range, mem_range]
  exact ⟨And.right, fun h => ⟨isSome_pixel?.1 (Option.isSome_of_eq_some h), h⟩⟩

/-! ## Counting -/

theorem count_true_eq_sum : ∀ bits : List Bool, bits.count true = (bits.map Bool.toNat).sum
  | [] => rfl
  | bit :: bits => by
    rw [List.count_cons, count_true_eq_sum bits, List.map_cons, List.sum_cons, Nat.add_comm]
    cases bit <;> rfl

theorem sum_map_toList {α : Type} {n : Nat} (v : Vector α n) (f : α → Nat) :
    (v.toList.map f).sum = ∑ k : Fin n, f v[k] := by
  obtain ⟨⟨items⟩, rfl⟩ := v
  exact (Fin.sum_univ_fun_getElem items f).symm

/-- There are as many lit pixels as the picture counts. -/
theorem card_litPixels (p : Picture) : p.litPixels.card = p.lit := by
  calc p.litPixels.card
      = ∑ j ∈ range height, ∑ i ∈ range width, if p.pixel? i j = some true then 1 else 0 := by
        rw [litPixels, card_filter, sum_product_right]
    _ = ∑ j : Fin height, ∑ i : Fin width, p.rows[j][i].toNat := by
        simp only [sum_range]
        refine sum_congr rfl fun j _ => sum_congr rfl fun i _ => ?_
        have hpixel : p.pixel? i j = some p.rows[j][i] := by simp [pixel?]
        rw [hpixel]
        cases p.rows[j][i] <;> rfl
    _ = ∑ j : Fin height, p.rows[j].toList.count true := by
        simp only [count_true_eq_sum, sum_map_toList]
    _ = p.lit := by
        rw [← sum_map_toList p.rows fun row => row.toList.count true, lit, pixels,
          List.count_flatMap]
        rfl

theorem overlap_eq (p : Picture) (x y : Nat) (rows : List UInt8) :
    p.overlap x y rows = (p.litPixels ∩ Dot.setPixels x y rows).card := by
  have hkind := Dot.card_filter_setPixels x y rows fun place =>
    p.pixel? place.1 place.2 == some true
  rw [overlap, ← hkind]
  refine congrArg card (Finset.ext fun ⟨i, j⟩ => ?_)
  rw [mem_filter, mem_inter, mem_litPixels, beq_iff_eq, and_comm]

/-! ## The sets after a drawing -/

/-- The set bits of a sprite that fits lie over pixels. -/
theorem Drawn.inside_of_spriteBit (h : p.Drawn x y rows q collision) {i j : Nat}
    (hbit : Dot.spriteBit x y rows i j = true) : i < width ∧ j < height := by
  rw [Dot.spriteBit_eq] at hbit
  split at hbit
  case isTrue hover =>
    rcases h.fits with rfl | hfits
    · exact absurd hover.2 (by simp)
    · simp only [width, height]
      omega
  case isFalse => exact nomatch hbit

theorem Drawn.litPixels_eq (h : p.Drawn x y rows q collision) :
    q.litPixels = symmDiff p.litPixels (Dot.setPixels x y rows) := by
  ext ⟨i, j⟩
  rw [mem_symmDiff, mem_litPixels, mem_litPixels, Dot.mem_setPixels, h.pixel]
  cases hp : p.pixel? i j with
  | some lit => cases lit <;> simp
  | none =>
    have hbit : Dot.spriteBit x y rows i j ≠ true := by
      intro hbit
      have hsome := (isSome_pixel? (p := p)).2 (h.inside_of_spriteBit hbit)
      rw [hp] at hsome
      exact nomatch hsome
    simp [hbit]

theorem Drawn.collision_iff_nonempty (h : p.Drawn x y rows q collision) :
    collision = true ↔ (p.litPixels ∩ Dot.setPixels x y rows).Nonempty := by
  rw [h.collision_iff]
  simp only [Finset.Nonempty, Prod.exists, mem_inter, mem_litPixels, Dot.mem_setPixels]

/-- Each set bit lights a dark pixel or puts out a lit one. -/
theorem Drawn.lit_add_overlap (h : p.Drawn x y rows q collision) :
    q.lit + 2 * p.overlap x y rows = p.lit + Dot.ones rows := by
  have hcard := card_symmDiff_add p.litPixels (Dot.setPixels x y rows)
  rwa [← h.litPixels_eq, card_litPixels, card_litPixels, Dot.card_setPixels, ← overlap_eq] at hcard

theorem Drawn.collision_iff_overlap (h : p.Drawn x y rows q collision) :
    collision = true ↔ 0 < p.overlap x y rows := by
  rw [h.collision_iff_nonempty, overlap_eq, card_pos]

/-- A drawing changes the number of lit pixels by its set bits, but those that fall on a lit pixel
count the other way. Drawn again the sprite gives the old number, also where both drawings fail. -/
theorem lit_blit (p : Picture) (x y : Nat) (rows : List UInt8) :
    (∀ q collision, p.blit x y rows = ⟨q, .ok collision⟩ →
      (q.lit : Int) = p.lit + Dot.ones rows - 2 * p.overlap x y rows ∧
      (collision = false ↔ q.lit = p.lit + Dot.ones rows) ∧
      ∃ again, q.blit x y rows = ⟨p, .ok again⟩ ∧
        (collision = true ∨ again = true ↔ 0 < Dot.ones rows)) ∧
    (∀ fault, (p.blit x y rows).result = .error fault →
      ((p.blit x y rows).state.blit x y rows).result = .error fault) ∧
    ((p.blit x y rows).state.blit x y rows).state.lit = p.lit := by
  -- Whether a drawing fails does not depend on the picture.
  refine ⟨fun q collision h => ?_, fun fault h => (blit_error_iff ..).2 ((blit_error_iff ..).1 h),
    by rw [blit_twice]⟩
  have hd := drawn_of_blit h
  have hlit := hd.lit_add_overlap
  obtain ⟨again, hr⟩ := (blit_ok_iff (p := q)).2 hd.fits
  have hback : q.blit x y rows = ⟨p, .ok again⟩ := by
    rw [← hr, ← p.blit_twice x y rows, h]
  have hd' := drawn_of_blit hback
  have hlit' := hd'.lit_add_overlap
  refine ⟨by omega, ?_, again, hback, ?_⟩
  · rw [← Bool.not_eq_true, hd.collision_iff_overlap]
    omega
  · -- Of the two drawings, each set bit falls on a lit pixel in exactly one.
    rw [hd.collision_iff_overlap, hd'.collision_iff_overlap]
    omega

/-- A sprite of four set bits in the lower right corner, one of them over a lit pixel. -/
theorem lit_blit_corner :
    let p := Picture.blank.paint [.dot 63 31 true]
    ∃ q again, p.blit 56 30 [0x81, 0x03] = ⟨q, .ok true⟩ ∧ p.lit = 1 ∧ q.lit = 3 ∧
      q.blit 56 30 [0x81, 0x03] = ⟨p, .ok again⟩ := by
  intro p
  have hlit : p.lit = 1 := by decide +kernel
  have hones : Dot.ones [0x81, 0x03] = 4 := by decide
  have hoverlap : p.overlap 56 30 [0x81, 0x03] = 1 := by decide +kernel
  obtain ⟨collision, hr⟩ : ∃ collision, (p.blit 56 30 [0x81, 0x03]).result = .ok collision :=
    blit_ok_iff.2 (Or.inr (by decide))
  obtain ⟨q, hq⟩ : ∃ q, p.blit 56 30 [0x81, 0x03] = ⟨q, .ok collision⟩ := ⟨_, by rw [← hr]⟩
  obtain ⟨hcount, hflag, again, hback, -⟩ := (lit_blit p 56 30 [0x81, 0x03]).1 q collision hq
  rw [hlit, hones, hoverlap] at hcount
  rw [hlit, hones] at hflag
  obtain rfl : collision = true := by
    rw [← Bool.not_eq_false, hflag]
    omega
  exact ⟨q, again, hq, hlit, by omega, hback⟩

end Picture

end Chip8
