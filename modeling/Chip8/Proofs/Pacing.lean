import Mathlib.Data.List.DropRight
import Chip8.Period
import Chip8.Proofs.Numerals

/-!
# Periods read back

A number of thousandths or millionths is written with a point, and without the zeros that would end
it. Its decimals and the zeros that are missing are as many digits as there are places
(`Numeral.value_decimals`), so the number can be read (`Numeral.unscaled_scaled`).

A period is such a number with its unit behind it, which begins with a letter. It is read back by
its unit (`Period.ofText?_text`), and periods with the same text are thus equal
(`Period.text_inj`).
-/

namespace Chip8

namespace Numeral

/-! ## Decimals with a point -/

theorem value_append_replicate_zero (digits : List Char) : ∀ k : Nat,
    value 10 (digits ++ List.replicate k '0') = value 10 digits * 10 ^ k
  | 0 => by simp
  | k + 1 => by
    have hzero : digitValue '0' = 0 := rfl
    rw [List.replicate_succ', ← List.append_assoc, value_concat,
      value_append_replicate_zero digits k, hzero, Nat.add_zero, Nat.pow_succ', Nat.mul_left_comm]

/-- The decimals of a number are as many digits as there are places, but for the zeros at the
end. -/
theorem decimals_append (places n : Nat) : ∃ k, decimals places n ++ List.replicate k '0' =
    (Nat.toDigits 10 (n % 10 ^ places)).leftpad places '0' := by
  let all := (Nat.toDigits 10 (n % 10 ^ places)).leftpad places '0'
  have hdecimals : decimals places n = all.rdropWhile (· == '0') := rfl
  have hzeros : all.rtakeWhile (· == '0') =
      List.replicate (all.rtakeWhile (· == '0')).length '0' :=
    List.eq_replicate_iff.2 ⟨rfl, fun c hc => by simpa using List.mem_rtakeWhile_imp hc⟩
  exact ⟨_, by rw [hdecimals, ← hzeros, List.rdropWhile_append_rtakeWhile]⟩

theorem value_decimals (places n : Nat) :
    value 10 (decimals places n) * 10 ^ (places - (decimals places n).length) =
      n % 10 ^ places := by
  obtain ⟨k, hk⟩ := decimals_append places n
  have hvalue : value 10 (decimals places n) * 10 ^ k = n % 10 ^ places := by
    rw [← value_append_replicate_zero, hk, value_leftpad, value_toDigits_ten]
  have hlength : (decimals places n).length + k =
      max places (Nat.toDigits 10 (n % 10 ^ places)).length := by
    rw [← List.length_replicate (n := k) (a := '0'), ← List.length_append, hk, List.length_leftpad]
  rcases Nat.eq_zero_or_pos places with rfl | hpos
  · -- Without places there is nothing behind the point.
    have hzero : value 10 (decimals 0 n) = 0 := by
      rw [Nat.pow_zero, Nat.mod_one] at hvalue
      exact (Nat.mul_eq_zero.1 hvalue).resolve_right (Nat.ne_of_gt (Nat.pow_pos (by decide)))
    rw [hzero, Nat.zero_mul, Nat.pow_zero, Nat.mod_one]
  · have hfits : (Nat.toDigits 10 (n % 10 ^ places)).length ≤ places :=
      (Nat.length_toDigits_le_iff (by decide) hpos).2 (Nat.mod_lt n (Nat.pow_pos (by decide)))
    have hmissing : places - (decimals places n).length = k := by omega
    rw [hmissing, hvalue]

theorem isDigit_of_mem_toDigits_ten {n : Nat} {c : Char} (h : c ∈ Nat.toDigits 10 n) : c.isDigit :=
  Nat.isDigit_of_mem_toDigits (by decide) (by decide) h

theorem isDigit_of_mem_decimals {places n : Nat} {c : Char} (h : c ∈ decimals places n) :
    c.isDigit := by
  obtain ⟨k, hk⟩ := decimals_append places n
  have hmem : c ∈ (Nat.toDigits 10 (n % 10 ^ places)).leftpad places '0' :=
    hk ▸ List.mem_append_left _ h
  rcases List.mem_append.1 hmem with hzero | hdigit
  · rw [List.eq_of_mem_replicate hzero]
    decide
  · exact isDigit_of_mem_toDigits_ten hdigit

/-- A number is written as a whole number, and as its decimals behind a point if it has some. -/
theorem toList_scaled (places n : Nat) : (scaled places n).toList =
    Nat.toDigits 10 (n / 10 ^ places) ++
      if (decimals places n).isEmpty then [] else '.' :: decimals places n := by
  unfold scaled
  split <;> simp_all

/-- The number that is written with a point in front of its last digits, in units of the last of so
many places. -/
def unscaled (places : Nat) (text : List Char) : Nat :=
  let fraction := (text.dropWhile (· ≠ '.')).drop 1
  value 10 (text.takeWhile (· ≠ '.')) * 10 ^ places +
    value 10 fraction * 10 ^ (places - fraction.length)

theorem unscaled_scaled (places n : Nat) : unscaled places (scaled places n).toList = n := by
  have hwhole : ∀ c ∈ Nat.toDigits 10 (n / 10 ^ places), decide (c ≠ '.') = true := by
    intro c hc
    have hdigit := isDigit_of_mem_toDigits_ten hc
    exact decide_eq_true fun hpoint => absurd (hpoint ▸ hdigit) (by decide)
  have hvalue := value_decimals places n
  rw [unscaled, toList_scaled, List.takeWhile_append_of_pos hwhole,
    List.dropWhile_append_of_pos hwhole]
  have hfraction : ((if (decimals places n).isEmpty then [] else
      '.' :: decimals places n).dropWhile (· ≠ '.')).drop 1 = decimals places n := by
    cases decimals places n <;> simp
  have hpoint : (if (decimals places n).isEmpty then [] else
      '.' :: decimals places n).takeWhile (· ≠ '.') = [] := by
    cases decimals places n <;> simp
  rw [hfraction, hpoint, List.append_nil, value_toDigits_ten, hvalue, Nat.mul_comm, Nat.div_add_mod]

end Numeral

namespace Period

/-! ## Periods -/

/-- A character of a number, as opposed to one of a unit. -/
def isNumeric (c : Char) : Bool := c.isDigit || c == '.'

/-- The period that a text stands for, told by its unit. -/
def ofText? (text : String) : Option Period :=
  let number := text.toList.takeWhile isNumeric
  match text.toList.dropWhile isNumeric with
  | ['s'] => some ⟨Numeral.unscaled 9 number⟩
  | ['m', 's'] => some ⟨Numeral.unscaled 6 number⟩
  | ['µ', 's'] => some ⟨Numeral.unscaled 3 number⟩
  | ['n', 's'] => some ⟨Numeral.unscaled 0 number⟩
  | _ => none

theorem isNumeric_of_mem_scaled {places n : Nat} {c : Char}
    (h : c ∈ (Numeral.scaled places n).toList) : isNumeric c := by
  rw [Numeral.toList_scaled] at h
  rcases List.mem_append.1 h with hwhole | hfraction
  · simp [isNumeric, Numeral.isDigit_of_mem_toDigits_ten hwhole]
  · split at hfraction
    · exact absurd hfraction List.not_mem_nil
    · rcases List.mem_cons.1 hfraction with rfl | hfraction
      · rfl
      · simp [isNumeric, Numeral.isDigit_of_mem_decimals hfraction]

/-- The text of a period is read back as the period. -/
theorem ofText?_text (p : Period) : ofText? p.text = some p := by
  have hnumeric : ∀ places, ∀ c ∈ (Numeral.scaled places p.nanoseconds).toList, isNumeric c :=
    fun _ _ => isNumeric_of_mem_scaled
  unfold text ofText?
  split_ifs
  all_goals
    simp only [String.toList_append, List.takeWhile_append_of_pos (hnumeric _),
      List.dropWhile_append_of_pos (hnumeric _)]
    simp [isNumeric, Numeral.unscaled_scaled]

example : ofText? "142.857142ms" = some (ofRate 7) := by decide +kernel

theorem text_inj {p q : Period} : p.text = q.text ↔ p = q := by
  refine ⟨fun h => ?_, fun h => h ▸ rfl⟩
  have hread : some p = some q := by rw [← ofText?_text p, ← ofText?_text q, h]
  exact Option.some.inj hread

end Period

end Chip8
