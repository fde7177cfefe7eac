import MotionEntropy.Proofs.LogarithmAccuracy

namespace MotionEntropy.Logarithm

open Real

def exponent (w : ℤ) : ℕ := w.toNat.log2

def mantissa (w : ℤ) : ℤ :=
  if 61 < exponent w then w >>> (exponent w - 61) else w <<< (61 - exponent w)

variable {w : ℤ}

theorem bitLength_sub_one (h0 : 0 < w) : bitLength w - 1 = exponent w := by
  rw [bitLength, if_neg (by omega), if_neg (by omega), Nat.add_sub_cancel, exponent]

theorem exponent_bounds (h0 : 0 < w) : 2 ^ exponent w ≤ w ∧ w < 2 ^ (exponent w + 1) := by
  have hle := Nat.log2_self_le (n := w.toNat) (by omega)
  have hlt := Nat.lt_log2_self (n := w.toNat)
  zify at hle hlt
  rw [Int.toNat_of_nonneg h0.le] at hle hlt
  exact ⟨hle, hlt⟩

theorem exponent_le (h0 : 0 < w) {k : ℕ} (h : w < 2 ^ (k + 1)) : exponent w ≤ k := by
  apply Nat.le_of_lt_succ
  apply (Nat.log2_lt (by omega)).mpr
  zify
  rwa [Int.toNat_of_nonneg h0.le]

theorem exponent_mul_pow (h0 : 0 < w) (k : ℕ) : exponent (w * 2 ^ k) = exponent w + k := by
  obtain ⟨hl, hu⟩ := exponent_bounds h0
  have hpos : (0 : ℤ) < w * 2 ^ k := by positivity
  apply (Nat.log2_eq_iff (by omega)).mpr
  zify
  rw [Int.toNat_of_nonneg hpos.le, pow_add, Nat.add_right_comm, pow_add _ (exponent w + 1)]
  constructor
  · exact mul_le_mul_of_nonneg_right hl (by positivity)
  · exact mul_lt_mul_of_pos_right hu (by positivity)

theorem mantissa_of_le (h : exponent w ≤ 61) : mantissa w = w * 2 ^ (61 - exponent w) := by
  rw [mantissa, if_neg (by omega), Int.shiftLeft_eq]

theorem mantissa_of_ge (h : 61 ≤ exponent w) : mantissa w = w / 2 ^ (exponent w - 61) := by
  by_cases he : exponent w = 61
  · simp [mantissa, he]
  · rw [mantissa, if_pos (by omega), Int.shiftRight_eq_div_pow]
    push_cast
    rfl

theorem mantissa_bounds (h0 : 0 < w) : one ≤ mantissa w ∧ mantissa w < 2 * one := by
  obtain ⟨hl, hu⟩ := exponent_bounds h0
  rw [pow_succ] at hu
  have hone : one = 2 ^ 61 := by norm_num [one]
  by_cases h : exponent w ≤ 61
  · have hsplit : one = 2 ^ exponent w * 2 ^ (61 - exponent w) := by
      rw [← pow_add, Nat.add_sub_cancel' h, hone]
    have hpos : (0 : ℤ) < 2 ^ (61 - exponent w) := by positivity
    rw [mantissa_of_le h, hsplit]
    constructor <;> nlinarith
  · have hsplit : (2 : ℤ) ^ exponent w = one * 2 ^ (exponent w - 61) := by
      rw [hone, ← pow_add]
      congr 1
      omega
    have hpos : (0 : ℤ) < 2 ^ (exponent w - 61) := by positivity
    rw [mantissa_of_ge (by omega)]
    constructor
    · apply (Int.le_ediv_iff_mul_le hpos).mpr
      rwa [← hsplit]
    · apply (Int.ediv_lt_iff_lt_mul hpos).mpr
      nlinarith

theorem mantissa_mul_pow (h0 : 0 < w) (k : ℕ) : mantissa (w * 2 ^ k) = mantissa w := by
  have he := exponent_mul_pow h0 k
  by_cases hk : exponent w + k ≤ 61
  · rw [mantissa_of_le (he ▸ hk), mantissa_of_le (by omega), he, mul_assoc, ← pow_add]
    congr 2
    omega
  · rw [mantissa_of_ge (by omega), he]
    by_cases h : exponent w ≤ 61
    · have hsplit : w * 2 ^ k = w * 2 ^ (61 - exponent w) * 2 ^ (exponent w + k - 61) := by
        rw [mul_assoc, ← pow_add]
        congr 2
        omega
      rw [mantissa_of_le h, hsplit, Int.mul_ediv_cancel _ (by positivity)]
    · have hsplit : (2 : ℤ) ^ (exponent w + k - 61) = 2 ^ (exponent w - 61) * 2 ^ k := by
        rw [← pow_add]
        congr 1
        omega
      rw [mantissa_of_ge (by omega), hsplit, Int.mul_ediv_mul_of_pos_left _ _ (by positivity)]

theorem ofExponent_of_le {e : ℕ} (h : e ≤ 63) : ofExponent e = .ok (e * 2 ^ 57) := by
  rw [ofExponent, require_of (by omega)]
  rfl

theorem logb_mantissa (h0 : 0 < w) (h : exponent w ≤ 61) :
    logb 2 (mantissa w / 2 ^ 61) = logb 2 w - exponent w := by
  have hw : (0 : ℝ) < w := by exact_mod_cast h0
  have hpow : (2 : ℝ) ^ 61 = 2 ^ exponent w * 2 ^ (61 - exponent w) := by
    rw [← pow_add, Nat.add_sub_cancel' h]
  rw [mantissa_of_le h, hpow]
  push_cast
  rw [mul_div_mul_right _ _ (by positivity), logb_div hw.ne' (by positivity), logb_pow,
    logb_self_eq_one (by norm_num), mul_one]

theorem logb_unit_bounds {m : ℤ} (h : one ≤ m) (h' : m ≤ 2 * one) :
    0 ≤ logb 2 (m / 2 ^ 61) ∧ logb 2 (m / 2 ^ 61) ≤ 1 := by
  have h1 : (2 : ℝ) ^ 61 ≤ m := by exact_mod_cast h
  have h2 : (m : ℝ) ≤ 2 * 2 ^ 61 := by exact_mod_cast h'
  constructor
  · apply logb_nonneg (by norm_num)
    exact (one_le_div (by positivity)).mpr h1
  · rw [logb_le_iff_le_rpow (by norm_num) (by positivity), div_le_iff₀ (by positivity), rpow_one]
    exact h2

theorem exists_fraction (h0 : 0 < w) : ∃ z, ofMantissa (mantissa w) = .ok z ∧ |z| ≤ 2 ^ 57 + 2 ^ 9 ∧
    |(z : ℝ) - 2 ^ 57 * logb 2 (mantissa w / 2 ^ 61)| ≤ 2 ^ 9 - 1 := by
  obtain ⟨hm, hm'⟩ := mantissa_bounds h0
  obtain ⟨z, hz, hnear⟩ := ofMantissa_near hm hm'.le
  obtain ⟨hl, hu⟩ := logb_unit_bounds hm hm'.le
  have hle : |(z : ℝ)| ≤ 2 ^ 57 + 2 ^ 9 := by
    rw [abs_le] at hnear ⊢
    constructor <;> linarith
  exact ⟨z, hz, by exact_mod_cast hle, hnear⟩

theorem log2_eq {z : ℤ} (h0 : 0 < w) (he : exponent w ≤ 62) (hz : ofMantissa (mantissa w) = .ok z)
    (h : |z| ≤ 2 ^ 57 + 2 ^ 9) : log2 w = .ok (exponent w * 2 ^ 57 + z) := by
  have hfit : |(exponent w : ℤ) * 2 ^ 57 + z| < 2 ^ 63 := by
    rw [abs_le] at h
    rw [abs_lt]
    omega
  have hexp : ofExponent (exponent w) = .ok (exponent w * 2 ^ 57) := by
    apply ofExponent_of_le
    omega
  simp only [log2, if_neg (not_le.mpr h0), bitLength_sub_one h0]
  rw [← mantissa, hz, ok_bind, hexp]
  exact int64_of_abs_lt .add hfit

theorem log2_mul_pow (h0 : 0 < w) {k : ℕ} (h : w * 2 ^ k < 2 ^ 63) :
    ∃ v, log2 w = .ok v ∧ log2 (w * 2 ^ k) = .ok (v + k * 2 ^ 57) := by
  obtain ⟨z, hz, hle, -⟩ := exists_fraction h0
  have he : exponent w + k ≤ 62 := by
    rw [← exponent_mul_pow h0 k]
    exact exponent_le (by positivity) h
  have hscaled := log2_eq (w := w * 2 ^ k) (by positivity) (by rwa [exponent_mul_pow h0])
    ((mantissa_mul_pow h0 k).symm ▸ hz) hle
  refine ⟨_, log2_eq h0 (by omega) hz hle, ?_⟩
  rw [hscaled, exponent_mul_pow h0 k]
  push_cast
  congr 1
  ring

theorem log2_one : log2 1 = .ok 0 := by
  have hm : ofMantissa (mantissa 1) = .ok 0 := if_pos (by decide)
  exact log2_eq (by norm_num) (by decide) hm (by norm_num)

theorem log2_pow {k : ℕ} (h : k ≤ 62) : log2 (2 ^ k) = .ok (k * 2 ^ 57) := by
  have hlt : (1 : ℤ) * 2 ^ k < 2 ^ 63 := by
    rw [one_mul]
    exact pow_lt_pow_right₀ (by norm_num) (by omega)
  obtain ⟨v, hv, hscaled⟩ := log2_mul_pow one_pos hlt
  rw [log2_one] at hv
  cases hv
  simpa only [one_mul, zero_add] using hscaled

theorem log2_near (h0 : 0 < w) (h : w < 2 ^ 62) :
    ∃ v, log2 w = .ok v ∧ |(v : ℝ) - 2 ^ 57 * logb 2 w| ≤ 2 ^ 9 - 1 := by
  have he : exponent w ≤ 61 := exponent_le h0 h
  obtain ⟨z, hz, hle, hnear⟩ := exists_fraction h0
  refine ⟨_, log2_eq h0 (by omega) hz hle, ?_⟩
  rw [logb_mantissa h0 he] at hnear
  push_cast
  rw [abs_le] at hnear ⊢
  constructor <;> linarith

end MotionEntropy.Logarithm
