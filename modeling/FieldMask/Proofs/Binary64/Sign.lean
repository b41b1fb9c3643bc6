import FieldMask.Proofs.Binary64.Reading
import Mathlib.Algebra.Order.Field.Basic
import Mathlib.Algebra.Order.Field.Power
import Mathlib.Algebra.Order.Field.Rat
import Mathlib.Tactic.NormNum
import Mathlib.Tactic.Positivity
import Mathlib.Tactic.Ring

namespace FieldMask

/-!
# Which decimals are read as less than zero

A decimal behind a minus is rounded to a value.  If it is too small for that, the value is zero, and
a zero is not less than zero.

* `roundDiv_eq_zero_iff` — a quotient is rounded to zero up to one half.
* `Binary64.halfUnit` — one half of the smallest size of a value.
* `Binary64.isNegative_ofRatio_iff`, `Binary64.isNegative_ofDecimal_iff` — behind a minus, quotients
  and decimals of more than this size are less than zero, and no others are.
-/

/-- A quotient is rounded to zero if it is at most one half: at the half itself zero is the
even neighbour. -/
theorem roundDiv_eq_zero_iff {num den : Nat} (hden : 0 < den) :
    roundDiv num den = 0 ↔ 2 * num ≤ den := by
  rw [roundDiv]
  by_cases hlt : num < den
  · rw [Nat.div_eq_of_lt hlt, Nat.mod_eq_of_lt hlt]
    split <;> omega
  · -- From one on a quotient is never rounded down to zero.
    have hpos : 0 < num / den := Nat.div_pos (Nat.le_of_not_lt hlt) hden
    generalize num / den = quotient at hpos
    generalize num % den = remainder
    split <;> omega

namespace Binary64

/-! ### One half of a unit -/

/-- One half of the smallest size of a value. -/
def halfUnit : ℚ := 1 / 2 ^ 1075

/-- One half of a unit is more than nothing. -/
theorem halfUnit_pos : 0 < halfUnit := by
  rw [halfUnit]
  positivity

/-- It is far below one, too, so a whole number is never rounded to zero. -/
theorem halfUnit_lt_one : halfUnit < 1 := by
  rw [halfUnit, div_lt_one (by positivity)]
  exact one_lt_pow₀ (by norm_num) (by norm_num)

/-- No power of ten with so small an exponent comes near to it. -/
theorem ten_zpow_le_halfUnit {e : ℤ} (h : e ≤ -400) : (10 : ℚ) ^ e ≤ halfUnit := by
  have hpow : (2 : ℚ) ^ 1075 ≤ 10 ^ 400 := by
    have : (2 : Nat) ^ 1075 ≤ 10 ^ 400 := by decide +kernel
    exact_mod_cast this
  calc (10 : ℚ) ^ e ≤ 10 ^ (-400 : ℤ) := zpow_le_zpow_right₀ (by norm_num) h
    _ = 1 / 10 ^ 400 := by rw [zpow_neg, one_div]; rfl
    _ ≤ halfUnit := one_div_le_one_div_of_le (by positivity) hpow

/-! ### Quotients -/

/-- No more bits are dropped than there are. -/
theorem pow_excess_le {units : Nat} (h : units ≠ 0) : Nat.pow 2 (excess units) ≤ units := by
  have hexcess : excess units ≤ units.log2 := Nat.sub_le _ _
  exact (Nat.pow_le_pow_right (by decide) hexcess).trans (Nat.log2_self_le h)

/-- Dropping bits makes no size zero that is not zero without it, since bits are dropped
only of what has more than 53. -/
theorem roundDiv_excess_eq_zero_iff (scaled : Nat) {den : Nat} (hden : 0 < den) :
    roundDiv scaled (den * Nat.pow 2 (excess (scaled / den))) = 0 ↔ 2 * scaled ≤ den := by
  have hpow : 0 < Nat.pow 2 (excess (scaled / den)) := Nat.pow_pos (by decide)
  rw [roundDiv_eq_zero_iff (Nat.mul_pos hden hpow)]
  by_cases hquotient : scaled / den = 0
  · -- Below one unit there is nothing to drop.
    have hexcess : Nat.pow 2 (excess (scaled / den)) = 1 := by rw [hquotient]; rfl
    rw [hexcess, Nat.mul_one]
  · have hle : den * Nat.pow 2 (excess (scaled / den)) ≤ scaled :=
      (Nat.mul_le_mul_left den (pow_excess_le hquotient)).trans (Nat.mul_div_le scaled den)
    have hden' : den ≤ den * Nat.pow 2 (excess (scaled / den)) := Nat.le_mul_of_pos_right den hpow
    omega

/-- Comparing with one half of a unit needs no fractions. -/
theorem halfUnit_lt_div_iff {num den bits scaled : Nat} (hden : 0 < den)
    (hscaled : num * Nat.pow 2 bits = scaled) (hbits : bits + 1 = 1075) :
    halfUnit < (num : ℚ) / den ↔ den < 2 * scaled := by
  have hden' : (0 : ℚ) < den := by exact_mod_cast hden
  have hunits : (num : ℚ) * 2 ^ 1075 = ((2 * scaled : Nat) : ℚ) := by
    rw [← hscaled, ← hbits, Nat.pow_eq]
    push_cast
    ring
  rw [halfUnit, div_lt_div_iff₀ (by positivity) hden', one_mul, hunits, Nat.cast_lt]

/-- **Behind a minus a quotient is less than zero** if it is larger than one half of the smallest
size. -/
theorem isNegative_ofRatio_iff {num den : Nat} (hden : 0 < den) :
    (ofRatio true num den).isNegative = true ↔ halfUnit < (num : ℚ) / den := by
  obtain ⟨shift, rounded, hshift, hrounded, heq⟩ := ofRatio_eq true num den
  generalize hscaled : num * Nat.pow 2 1074 = scaled at hshift hrounded
  have hzero := roundDiv_excess_eq_zero_iff scaled hden
  rw [← hshift, ← hrounded] at hzero
  rw [heq, halfUnit_lt_div_iff hden hscaled rfl, ← Nat.not_le, ← hzero]
  by_cases hcarry : rounded = Nat.pow 2 53
  · -- Rounding up to one bit more gives no zero.
    rw [if_pos hcarry, hcarry, placed]
    split <;> simp [isNegative]
  · rw [if_neg hcarry, placed]
    split
    · simp [isNegative]
    next hmax =>
      -- What has bits to drop is not rounded to zero.
      refine iff_of_true rfl ?_
      rw [hzero]
      have hquotient : scaled / den ≠ 0 := by
        intro h
        rw [hshift, h] at hmax
        exact hmax (by decide)
      have := (Nat.div_pos_iff.1 (Nat.pos_of_ne_zero hquotient)).2
      omega

/-! ### Decimals -/

/-- Digits are fewer than ten to the number of their bits. -/
theorem lt_ten_pow_log2 (digits : Nat) : (digits : ℚ) < 10 ^ (digits.log2 + 1 : ℤ) := by
  have hlt : digits < 10 ^ (digits.log2 + 1) :=
    Nat.lt_log2_self.trans_le (Nat.pow_le_pow_left (by decide) _)
  exact_mod_cast hlt

/-- **Behind a minus a decimal is less than zero** if it is larger than one half of the
smallest size, and rounded to zero otherwise.  The cases are those of the definition, which
tells decimals beyond any value by their exponent alone. -/
theorem isNegative_ofDecimal_iff (digits : Nat) (e : Int) :
    (ofDecimal true digits e).isNegative = true ↔ halfUnit < (digits : ℚ) * 10 ^ e := by
  have hten : (0 : ℚ) < 10 ^ e := by positivity
  rw [ofDecimal]
  split
  next hsmall =>
    refine iff_of_false Bool.false_ne_true (not_lt.2 ?_)
    rcases hsmall with rfl | hsmall
    · rw [Nat.cast_zero, zero_mul]
      exact halfUnit_pos.le
    · -- So small a decimal is below the half, and it is read as zero without being computed.
      calc (digits : ℚ) * 10 ^ e ≤ 10 ^ (digits.log2 + 1 : ℤ) * 10 ^ e :=
            mul_le_mul_of_nonneg_right (lt_ten_pow_log2 digits).le hten.le
        _ = 10 ^ (digits.log2 + 1 + e : ℤ) := (zpow_add₀ (by norm_num) _ _).symm
        _ ≤ halfUnit := ten_zpow_le_halfUnit (by omega)
  next hlarge =>
    have hdigits : digits ≠ 0 := fun h => hlarge (.inl h)
    split
    next hbeyond =>
      -- So large a decimal is read as infinite, and it is at least one.
      refine iff_of_true rfl ?_
      have hone : (1 : ℚ) ≤ digits := by exact_mod_cast Nat.one_le_iff_ne_zero.2 hdigits
      have hpow : (1 : ℚ) ≤ 10 ^ e := one_le_zpow₀ (by norm_num) (by omega)
      exact halfUnit_lt_one.trans_le (one_le_mul_of_one_le_of_one_le hone hpow)
    · split
      next hneg =>
        -- The digits are divided by a power of ten.
        obtain ⟨k, rfl⟩ : ∃ k : Nat, e = -k := ⟨e.natAbs, by omega⟩
        have hden : 0 < Nat.pow 10 k := Nat.pow_pos (by decide)
        have hvalue : (digits : ℚ) / ((Nat.pow 10 k : Nat) : ℚ) = digits * 10 ^ (-k : ℤ) := by
          rw [zpow_neg, zpow_natCast, div_eq_mul_inv, Nat.pow_eq, Nat.cast_pow, Nat.cast_ofNat]
        rw [Int.natAbs_neg, Int.natAbs_natCast, isNegative_ofRatio_iff hden, hvalue]
      next hneg =>
        -- The digits are multiplied by a power of ten.
        obtain ⟨k, rfl⟩ : ∃ k : Nat, e = k := ⟨e.natAbs, by omega⟩
        have hvalue : ((digits * Nat.pow 10 k : Nat) : ℚ) / ((1 : Nat) : ℚ) =
            digits * 10 ^ (k : ℤ) := by
          rw [Nat.cast_one, div_one, zpow_natCast, Nat.cast_mul, Nat.pow_eq, Nat.cast_pow,
            Nat.cast_ofNat]
        rw [Int.natAbs_natCast, isNegative_ofRatio_iff Nat.one_pos, hvalue]

end Binary64

end FieldMask
