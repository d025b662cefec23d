import Mathlib.Algebra.Order.Floor.Ring
import Mathlib.Data.Rat.Floor
import Mathlib.Tactic.FieldSimp
import Mathlib.Tactic.Linarith
import Mathlib.Tactic.Positivity
import Mathlib.Tactic.Push

/-!
Decimal numbers of a precision and a scale, and rounding to a scale with ties
away from zero. A number fits if it is a multiple of the last decimal place and
has no more digits than the precision.
-/
namespace Decimal

/-- The nearest integer, ties away from zero. -/
def roundHalfAway (q : ℚ) : ℤ := if 0 ≤ q then ⌊q + 1 / 2⌋ else -⌊-q + 1 / 2⌋

def roundTo (scale : ℕ) (q : ℚ) : ℚ := roundHalfAway (q * 10 ^ scale) / 10 ^ scale

def Fits (precision scale : ℕ) (q : ℚ) : Prop :=
  (q * 10 ^ scale).den = 1 ∧ |q| * 10 ^ scale < 10 ^ precision

instance (precision scale : ℕ) (q : ℚ) : Decidable (Fits precision scale q) :=
  inferInstanceAs (Decidable ((q * 10 ^ scale).den = 1 ∧ |q| * 10 ^ scale < 10 ^ precision))

/-! Multiples of the last decimal place -/

theorem den_one_iff {q : ℚ} : q.den = 1 ↔ ∃ m : ℤ, q = m := by
  constructor
  · intro whole
    exact ⟨q.num, ((Rat.den_eq_one_iff q).mp whole).symm⟩
  · rintro ⟨m, rfl⟩
    rfl

theorem scaled_iff {q : ℚ} {scale : ℕ} :
    (q * 10 ^ scale).den = 1 ↔ ∃ m : ℤ, q = m / 10 ^ scale := by
  have unit : (10 : ℚ) ^ scale ≠ 0 := by positivity
  simp only [den_one_iff, eq_div_iff unit]

theorem scaled_mono {q : ℚ} {scale scale' : ℕ} (coarser : scale ≤ scale')
    (whole : (q * 10 ^ scale).den = 1) : (q * 10 ^ scale').den = 1 := by
  rw [den_one_iff] at whole ⊢
  obtain ⟨m, same⟩ := whole
  refine ⟨m * 10 ^ (scale' - scale), ?_⟩
  have split : (10 : ℚ) ^ scale' = 10 ^ scale * 10 ^ (scale' - scale) := by
    rw [← pow_add, Nat.add_sub_cancel' coarser]
  rw [split, ← mul_assoc, same]
  push_cast
  rfl

theorem scaled_div (m : ℤ) (scale : ℕ) : ((m / 10 ^ scale : ℚ) * 10 ^ scale).den = 1 :=
  scaled_iff.mpr ⟨m, rfl⟩

/-! Rounding -/

@[simp] theorem round_int (m : ℤ) : roundHalfAway m = m := by
  have half : ∀ k : ℤ, ⌊(k : ℚ) + 1 / 2⌋ = k := by
    intro k
    rw [Int.floor_eq_iff]
    constructor <;> linarith
  unfold roundHalfAway
  split
  · exact half m
  · have negated := half (-m)
    push_cast at negated
    rw [negated, neg_neg]

theorem abs_round (q : ℚ) : |(roundHalfAway q : ℚ)| = ⌊|q| + 1 / 2⌋ := by
  have nonneg : 0 ≤ ⌊|q| + 1 / 2⌋ := Int.floor_nonneg.mpr (by positivity)
  have cast_nonneg : (0 : ℚ) ≤ ⌊|q| + 1 / 2⌋ := by exact_mod_cast nonneg
  unfold roundHalfAway
  split
  · rename_i sign
    rw [← abs_of_nonneg sign] at *
    rw [abs_abs] at *
    exact abs_of_nonneg cast_nonneg
  · rename_i sign
    rw [← abs_of_neg (lt_of_not_ge sign), Int.cast_neg, abs_neg]
    exact abs_of_nonneg cast_nonneg

theorem round_to_scaled (scale : ℕ) (q : ℚ) : (roundTo scale q * 10 ^ scale).den = 1 :=
  scaled_div _ scale

theorem abs_round_to (scale : ℕ) (q : ℚ) :
    |roundTo scale q| * 10 ^ scale = ⌊|q| * 10 ^ scale + 1 / 2⌋ := by
  have unit : (0 : ℚ) < 10 ^ scale := by positivity
  rw [roundTo, abs_div, abs_round, abs_of_pos unit, div_mul_cancel₀ _ unit.ne', abs_mul,
    abs_of_pos unit]

/-- Rounding leaves alone exactly the multiples of the last place. -/
theorem round_to_eq_iff {scale : ℕ} {q : ℚ} : roundTo scale q = q ↔ (q * 10 ^ scale).den = 1 := by
  constructor
  · intro same
    have scaled := round_to_scaled scale q
    rwa [same] at scaled
  · intro whole
    obtain ⟨m, same⟩ := den_one_iff.mp whole
    have unit : (10 : ℚ) ^ scale ≠ 0 := by positivity
    rw [roundTo, same, round_int, ← same, mul_div_cancel_right₀ _ unit]

/-! Fitting after rounding -/

theorem fits_of_finer {precision scale precision' scale' : ℕ} {q : ℚ}
    (bound : |q| * 10 ^ scale < 10 ^ precision) (whole : (q * 10 ^ scale').den = 1)
    (digits : precision + scale' ≤ precision' + scale) : Fits precision' scale' q := by
  refine ⟨whole, ?_⟩
  have unit : (0 : ℚ) < 10 ^ scale := by positivity
  have other : (0 : ℚ) < 10 ^ scale' := by positivity
  have grown : (10 : ℚ) ^ precision * 10 ^ scale' ≤ 10 ^ precision' * 10 ^ scale := by
    rw [← pow_add, ← pow_add]
    exact pow_le_pow_right₀ (by norm_num) digits
  have scaled : |q| * 10 ^ scale * 10 ^ scale' < 10 ^ precision * 10 ^ scale' :=
    mul_lt_mul_of_pos_right bound other
  nlinarith

theorem fits_div_iff {precision scale scale' m : ℕ} (finer : scale' ≤ scale) :
    Fits precision scale (m / 10 ^ scale') ↔ m * 10 ^ (scale - scale') < 10 ^ precision := by
  have unit : (10 : ℚ) ^ scale' ≠ 0 := by positivity
  have split : (10 : ℚ) ^ scale = 10 ^ scale' * 10 ^ (scale - scale') := by
    rw [← pow_add, Nat.add_sub_cancel' finer]
  have scaled : (m / 10 ^ scale' : ℚ) * 10 ^ scale = (m * 10 ^ (scale - scale') : ℕ) := by
    rw [split, ← mul_assoc, div_mul_cancel₀ _ unit]
    push_cast
    rfl
  rw [Fits, abs_of_nonneg (by positivity), scaled]
  refine ⟨fun fits => by exact_mod_cast fits.2, fun less => ⟨rfl, by exact_mod_cast less⟩⟩

theorem fits_nat_iff {precision scale m : ℕ} :
    Fits precision scale (m : ℚ) ↔ m * 10 ^ scale < 10 ^ precision := by
  have whole := @fits_div_iff precision scale 0 m (Nat.zero_le scale)
  rwa [pow_zero, div_one, Nat.sub_zero] at whole

theorem fits_no_digits_iff {scale : ℕ} {q : ℚ} : Fits 0 scale q ↔ q = 0 := by
  constructor
  · rintro ⟨whole, small⟩
    obtain ⟨m, rfl⟩ := scaled_iff.mp whole
    have unit : (0 : ℚ) < 10 ^ scale := by positivity
    rw [abs_div, abs_of_pos unit, div_mul_cancel₀ _ unit.ne', pow_zero] at small
    have zero : m = 0 := Int.abs_lt_one_iff.mp (by exact_mod_cast small)
    rw [zero, Int.cast_zero, zero_div]
  · rintro rfl
    simp [Fits]

theorem round_to_fits {precision scale precision' scale' : ℕ} {q : ℚ}
    (fits : Fits precision scale q) (digits : precision + scale' < precision' + scale) :
    Fits precision' scale' (roundTo scale' q) := by
  refine ⟨round_to_scaled scale' q, ?_⟩
  rw [abs_round_to]
  have unit : (0 : ℚ) < 10 ^ scale := by positivity
  have other : (0 : ℚ) < 10 ^ scale' := by positivity
  have least : (1 : ℚ) ≤ 10 ^ precision' := one_le_pow₀ (by norm_num)
  have grown : (10 : ℚ) ^ precision * 10 ^ scale' * 10 ≤ 10 ^ precision' * 10 ^ scale := by
    rw [← pow_add, ← pow_add, ← pow_succ]
    exact pow_le_pow_right₀ (by norm_num) digits
  have scaled : |q| * 10 ^ scale * 10 ^ scale' < 10 ^ precision * 10 ^ scale' :=
    mul_lt_mul_of_pos_right fits.2 other
  have tenth : |q| * 10 ^ scale' * 10 < 10 ^ precision' := by
    have together : |q| * 10 ^ scale' * 10 * 10 ^ scale < 10 ^ precision' * 10 ^ scale := by
      calc |q| * 10 ^ scale' * 10 * 10 ^ scale = |q| * 10 ^ scale * 10 ^ scale' * 10 := by ring
        _ < 10 ^ precision * 10 ^ scale' * 10 := by linarith
        _ ≤ 10 ^ precision' * 10 ^ scale := grown
    exact lt_of_mul_lt_mul_right together unit.le
  have below : ((⌊|q| * 10 ^ scale' + 1 / 2⌋ : ℤ) : ℚ) ≤ |q| * 10 ^ scale' + 1 / 2 :=
    Int.floor_le _
  linarith

/-- The largest number of a precision carries when it loses a decimal place. -/
theorem carry {precision scale precision' scale' : ℕ} (loses : scale' < scale)
    (digits : precision' + scale ≤ precision + scale') :
    Fits precision scale ((10 ^ precision - 1) / 10 ^ scale) ∧
      10 ^ precision' ≤ |roundTo scale' ((10 ^ precision - 1) / 10 ^ scale)| * 10 ^ scale' := by
  have unit : (0 : ℚ) < 10 ^ scale := by positivity
  have least : (1 : ℚ) ≤ 10 ^ precision := one_le_pow₀ (by norm_num)
  have nonneg : (0 : ℚ) ≤ (10 ^ precision - 1) / 10 ^ scale := by
    apply div_nonneg <;> linarith
  refine ⟨⟨?_, ?_⟩, ?_⟩
  · have whole := scaled_div (10 ^ precision - 1) scale
    push_cast at whole
    exact whole
  · rw [abs_of_nonneg nonneg, div_mul_cancel₀ _ unit.ne']
    linarith
  · rw [abs_round_to, abs_of_nonneg nonneg]
    have reached : ((10 ^ precision' : ℤ) : ℚ) ≤
        (10 ^ precision - 1) / 10 ^ scale * 10 ^ scale' + 1 / 2 := by
      have small : (10 : ℚ) ^ scale' * 10 ≤ 10 ^ scale := by
        rw [← pow_succ]
        exact pow_le_pow_right₀ (by norm_num) loses
      have grown : (10 : ℚ) ^ precision' * 10 ^ scale ≤ 10 ^ precision * 10 ^ scale' := by
        rw [← pow_add, ← pow_add]
        exact pow_le_pow_right₀ (by norm_num) digits
      have other : (0 : ℚ) < 10 ^ scale' := by positivity
      rw [div_mul_eq_mul_div, ← sub_le_iff_le_add, le_div_iff₀ unit]
      push_cast
      linarith
    exact_mod_cast Int.le_floor.mpr reached

end Decimal
