import Mathlib.Algebra.Order.Field.Power
import Mathlib.Data.Int.Log
import Mathlib.Data.Rat.Floor
import Mathlib.Tactic.Linarith
import Mathlib.Tactic.Positivity

/-!
Rounding a rational number to binary64, to the nearest value and to the even one
between two. An infinity stands as the first power of two out of range, and both
zeros as one.
-/
namespace Binary64

/-- The nearest integer; between two of them the even one. -/
def roundEven (q : ℚ) : ℤ :=
  if q - ⌊q⌋ < 1 / 2 then ⌊q⌋
  else if 1 / 2 < q - ⌊q⌋ then ⌊q⌋ + 1
  else if ⌊q⌋ % 2 = 0 then ⌊q⌋ else ⌊q⌋ + 1

/-- The exponent of the last place of a number. -/
def lastPlace (q : ℚ) : ℤ := max (Int.log 2 |q| - 52) (-1074)

def nearest (q : ℚ) : ℚ := roundEven (q / 2 ^ lastPlace q) * 2 ^ lastPlace q

def round (q : ℚ) : ℚ := max (-2 ^ 1024) (min (nearest q) (2 ^ 1024))

/-! Rounding to an integer -/

theorem floor_le_round_even (q : ℚ) : ⌊q⌋ ≤ roundEven q := by
  unfold roundEven
  split
  · exact le_refl _
  · split
    · omega
    · split <;> omega

theorem round_even_le_succ (q : ℚ) : roundEven q ≤ ⌊q⌋ + 1 := by
  unfold roundEven
  split
  · omega
  · split
    · exact le_refl _
    · split <;> omega

theorem round_even_mono {a b : ℚ} (le : a ≤ b) : roundEven a ≤ roundEven b := by
  have floors : ⌊a⌋ ≤ ⌊b⌋ := Int.floor_mono le
  by_cases same : ⌊a⌋ = ⌊b⌋
  · unfold roundEven
    rw [same]
    have fractions : a - ⌊b⌋ ≤ b - ⌊b⌋ := by linarith
    split
    · split
      · exact le_refl _
      · split
        · omega
        · split <;> omega
    · rename_i low
      have high : ¬ b - ⌊b⌋ < 1 / 2 := fun below => low (lt_of_le_of_lt fractions below)
      rw [if_neg high]
      split
      · rename_i above
        rw [if_pos (lt_of_lt_of_le above fractions)]
      · split <;> split <;> omega
  · have step : ⌊a⌋ + 1 ≤ ⌊b⌋ := by omega
    calc roundEven a ≤ ⌊a⌋ + 1 := round_even_le_succ a
      _ ≤ ⌊b⌋ := step
      _ ≤ roundEven b := floor_le_round_even b

theorem round_even_int (n : ℤ) : roundEven (n : ℚ) = n := by
  unfold roundEven
  rw [Int.floor_intCast, sub_self, if_pos (by norm_num)]

theorem round_even_neg (q : ℚ) : roundEven (-q) = -roundEven q := by
  by_cases whole : (⌊q⌋ : ℚ) = q
  · rw [← whole, ← Int.cast_neg, round_even_int, round_even_int]
  · have below : (⌊q⌋ : ℚ) < q := lt_of_le_of_ne (Int.floor_le q) whole
    have above : q < ⌊q⌋ + 1 := Int.lt_floor_add_one q
    have floor : ⌊-q⌋ = -⌊q⌋ - 1 := by
      rw [Int.floor_eq_iff]
      push_cast
      constructor <;> linarith
    unfold roundEven
    rw [floor]
    push_cast
    obtain less | tie | more := lt_trichotomy (q - ⌊q⌋) (1 / 2)
    · rw [if_neg (by linarith), if_pos (by linarith), if_pos less]
      omega
    · have notLess : ¬ q - ⌊q⌋ < 1 / 2 := by linarith
      have notMore : ¬ 1 / 2 < q - ⌊q⌋ := by linarith
      rw [if_neg (by linarith), if_neg (by linarith), if_neg notLess, if_neg notMore]
      split <;> split <;> omega
    · rw [if_pos (by linarith), if_neg (by linarith), if_pos more]
      omega

/-! Rounding to binary64 -/

theorem last_place_neg (q : ℚ) : lastPlace (-q) = lastPlace q := by
  unfold lastPlace
  rw [abs_neg]

theorem nearest_neg (q : ℚ) : nearest (-q) = -nearest q := by
  unfold nearest
  rw [last_place_neg, neg_div, round_even_neg]
  push_cast
  ring

theorem nearest_zero : nearest 0 = 0 := by
  unfold nearest
  have zero : roundEven 0 = 0 := by
    have whole := round_even_int 0
    exact_mod_cast whole
  rw [zero_div, zero, Int.cast_zero, zero_mul]

theorem nearest_nonneg {q : ℚ} (nonneg : 0 ≤ q) : 0 ≤ nearest q := by
  have scaled : (0 : ℚ) ≤ q / 2 ^ lastPlace q := by positivity
  have whole : roundEven 0 ≤ roundEven (q / 2 ^ lastPlace q) := round_even_mono scaled
  have zero : roundEven 0 = 0 := by
    have same := round_even_int 0
    exact_mod_cast same
  rw [zero] at whole
  have cast : (0 : ℚ) ≤ roundEven (q / 2 ^ lastPlace q) := by exact_mod_cast whole
  unfold nearest
  positivity

theorem nearest_le_power {q : ℚ} (under : q ≤ 2 ^ (lastPlace q + 53)) :
    nearest q ≤ 2 ^ (lastPlace q + 53) := by
  have place : (0 : ℚ) < 2 ^ lastPlace q := by positivity
  have split : (2 : ℚ) ^ (lastPlace q + 53) = 2 ^ 53 * 2 ^ lastPlace q := by
    rw [zpow_add₀ (by norm_num)]
    ring
  have scaled : q / 2 ^ lastPlace q ≤ ((2 ^ 53 : ℤ) : ℚ) := by
    rw [div_le_iff₀ place]
    push_cast
    linarith
  have rounded : roundEven (q / 2 ^ lastPlace q) ≤ 2 ^ 53 := by
    have mono := round_even_mono scaled
    rwa [round_even_int] at mono
  have cast : (roundEven (q / 2 ^ lastPlace q) : ℚ) ≤ 2 ^ 53 := by exact_mod_cast rounded
  unfold nearest
  rw [split]
  gcongr

theorem power_le_nearest {q : ℚ} (above : 2 ^ (lastPlace q + 52) ≤ q) :
    2 ^ (lastPlace q + 52) ≤ nearest q := by
  have place : (0 : ℚ) < 2 ^ lastPlace q := by positivity
  have split : (2 : ℚ) ^ (lastPlace q + 52) = 2 ^ 52 * 2 ^ lastPlace q := by
    rw [zpow_add₀ (by norm_num)]
    ring
  have scaled : ((2 ^ 52 : ℤ) : ℚ) ≤ q / 2 ^ lastPlace q := by
    rw [le_div_iff₀ place]
    push_cast
    linarith
  have rounded : 2 ^ 52 ≤ roundEven (q / 2 ^ lastPlace q) := by
    have mono := round_even_mono scaled
    rwa [round_even_int] at mono
  have cast : (2 : ℚ) ^ 52 ≤ roundEven (q / 2 ^ lastPlace q) := by exact_mod_cast rounded
  unfold nearest
  rw [split]
  gcongr

/-- Across a power of two: what lies below rounds to it at most, what lies above to it
    at least. -/
theorem nearest_mono_nonneg {a b : ℚ} (positive : 0 < a) (le : a ≤ b) : nearest a ≤ nearest b := by
  have positiveB : 0 < b := lt_of_lt_of_le positive le
  have logs : Int.log 2 |a| ≤ Int.log 2 |b| := by
    rw [abs_of_pos positive, abs_of_pos positiveB]
    exact Int.log_mono_right positive le
  have places : lastPlace a ≤ lastPlace b := by
    unfold lastPlace
    omega
  by_cases same : lastPlace a = lastPlace b
  · unfold nearest
    rw [same]
    have scaled : a / 2 ^ lastPlace b ≤ b / 2 ^ lastPlace b := by gcongr
    have rounded : (roundEven (a / 2 ^ lastPlace b) : ℚ) ≤ roundEven (b / 2 ^ lastPlace b) := by
      exact_mod_cast round_even_mono scaled
    gcongr
  · have apart : lastPlace a < lastPlace b := by omega
    have normal : lastPlace b = Int.log 2 b - 52 := by
      unfold lastPlace at apart ⊢
      rw [abs_of_pos positiveB] at apart ⊢
      omega
    have lower : Int.log 2 a ≤ lastPlace a + 52 := by
      unfold lastPlace
      rw [abs_of_pos positive]
      omega
    have higher : lastPlace a + 53 ≤ lastPlace b + 52 := by omega
    have under : a ≤ 2 ^ (lastPlace a + 53) := by
      calc a ≤ ((2 : ℕ) : ℚ) ^ (Int.log 2 a + 1) := (Int.lt_zpow_succ_log_self (by decide) a).le
        _ ≤ 2 ^ (lastPlace a + 53) := by
          push_cast
          exact zpow_le_zpow_right₀ (by norm_num) (by omega)
    have above : (2 : ℚ) ^ (lastPlace b + 52) ≤ b := by
      have self : ((2 : ℕ) : ℚ) ^ Int.log 2 b ≤ b := Int.zpow_log_le_self (by decide) positiveB
      rw [normal]
      simpa using self
    calc nearest a ≤ 2 ^ (lastPlace a + 53) := nearest_le_power under
      _ ≤ 2 ^ (lastPlace b + 52) := zpow_le_zpow_right₀ (by norm_num) higher
      _ ≤ nearest b := power_le_nearest above

theorem nearest_mono {a b : ℚ} (le : a ≤ b) : nearest a ≤ nearest b := by
  obtain negative | zero | positive := lt_trichotomy a 0
  · obtain below | zero | above := lt_trichotomy b 0
    · have mirrored : nearest (-b) ≤ nearest (-a) :=
        nearest_mono_nonneg (by linarith) (by linarith)
      rw [nearest_neg, nearest_neg] at mirrored
      linarith
    · have mirrored := nearest_nonneg (neg_nonneg.2 negative.le)
      rw [nearest_neg] at mirrored
      rw [zero, nearest_zero]
      linarith
    · have mirrored := nearest_nonneg (neg_nonneg.2 negative.le)
      have upper := nearest_nonneg above.le
      rw [nearest_neg] at mirrored
      linarith
  · rw [zero, nearest_zero]
    exact nearest_nonneg (by linarith)
  · exact nearest_mono_nonneg positive le

theorem round_mono {a b : ℚ} (le : a ≤ b) : round a ≤ round b := by
  unfold round
  have rounded := nearest_mono le
  exact max_le_max (le_refl _) (min_le_min rounded (le_refl _))

theorem lt_of_round_lt {a b : ℚ} (rounded : round a < round b) : a < b := by
  by_contra apart
  exact absurd (round_mono (le_of_not_gt apart)) (not_le_of_gt rounded)

theorem abs_round_lt {q : ℚ} (word : |q| ≤ 2 ^ 63) : |round q| < 2 ^ 1024 := by
  have whole : nearest (2 ^ 63) ≤ 2 ^ 64 := by
    have log : Int.log 2 |(2 : ℚ) ^ 63| = 63 := by
      rw [abs_of_pos (by positivity)]
      exact_mod_cast Int.log_zpow (R := ℚ) (b := 2) (by norm_num) 63
    have place : lastPlace (2 ^ 63) = 11 := by
      rw [lastPlace, log]
      norm_num
    have under := @nearest_le_power (2 ^ 63) (by rw [place]; norm_num)
    rw [place] at under
    exact_mod_cast under
  have far : (2 : ℚ) ^ 64 < 2 ^ 1024 := pow_lt_pow_right₀ (by norm_num) (by norm_num)
  obtain ⟨least, most⟩ := abs_le.mp word
  have above : nearest q ≤ 2 ^ 64 := (nearest_mono most).trans whole
  have below : -2 ^ 64 ≤ nearest q := by
    have mono := nearest_mono least
    rw [nearest_neg] at mono
    exact (neg_le_neg whole).trans mono
  have finite : round q = nearest q := by
    unfold round
    rw [min_eq_left (above.trans far.le), max_eq_right ((neg_le_neg far.le).trans below)]
  rw [finite]
  exact (abs_le.mpr ⟨below, above⟩).trans_lt far

end Binary64
