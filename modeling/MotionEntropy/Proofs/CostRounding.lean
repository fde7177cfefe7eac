import Mathlib.Algebra.Order.Round
import MotionEntropy.Proofs.CdfValidity

namespace MotionEntropy

namespace Logarithm

open Real

/-- Adds to `n` the bits below `b` that keep its power within `t`, from the highest down. -/
def root (t : ℕ) : ℕ → ℕ → ℕ
  | 0, n => n
  | b + 1, n => root t b (if (n + 2 ^ b) ^ 1024 ≤ t then n + 2 ^ b else n)

/-- The powers of `n` and of `n + 1` lie below and above `t`, by a part in `2 ^ 20` at least. -/
def Straddles (t n : ℕ) : Prop :=
  n ^ 1024 * (2 ^ 20 + 1) ≤ t * 2 ^ 20 ∧ t * (2 ^ 20 + 1) ≤ (n + 1) ^ 1024 * 2 ^ 20

instance (t n : ℕ) : Decidable (Straddles t n) := inferInstanceAs (Decidable (_ ∧ _))

/-- Between one half and one there are 512 points where the rounding of a cost changes, and no
probability comes near to any of them. -/
theorem midpoints_straddled : ∀ i < 512,
    Straddles (2 ^ (15360 - (2 * i + 1))) (root (2 ^ (15360 - (2 * i + 1))) 15 0) := by
  decide +kernel

variable {p q n : ℕ} {v : ℤ}

theorem logb_scale_div (h : 0 < q) : logb 2 (32768 / q) = 15 - logb 2 q := by
  have hq : (0 : ℝ) < q := by exact_mod_cast h
  have htop : logb 2 32768 = 15 := by
    rw [show (32768 : ℝ) = 2 ^ 15 by norm_num, logb_pow, logb_self_eq_one (by norm_num)]
    norm_num
  rw [logb_div (by norm_num) hq.ne', htop]

theorem logb_double (h : 0 < q) : logb 2 (2 * q : ℕ) = 1 + logb 2 q := by
  have hq : (q : ℝ) ≠ 0 := by exact_mod_cast h.ne'
  push_cast
  rw [logb_mul (by norm_num) hq, logb_self_eq_one (by norm_num)]

theorem logb_octave (h : 16384 ≤ q) (h' : q ≤ 32768) : 14 ≤ logb 2 q ∧ logb 2 q ≤ 15 := by
  have hq : (0 : ℝ) < q := by exact_mod_cast (show 0 < q by omega)
  constructor
  · rw [le_logb_iff_rpow_le (by norm_num) hq]
    norm_num
    exact_mod_cast h
  · rw [logb_le_iff_le_rpow (by norm_num) hq]
    norm_num
    exact_mod_cast h'

theorem logb_scaled (h : 0 < q) (k a : ℕ) : logb 2 ((q : ℝ) ^ k * 2 ^ a) = k * logb 2 q + a := by
  have hq : (0 : ℝ) < q := by exact_mod_cast h
  rw [logb_mul (by positivity) (by positivity), logb_pow, logb_pow, logb_self_eq_one (by norm_num),
    mul_one]

theorem scaled_le_iff (h : 0 < q) {k a b : ℕ} : q ^ k * 2 ^ a ≤ 2 ^ b ↔ k * logb 2 q + a ≤ b := by
  have hq : (0 : ℝ) < q := by exact_mod_cast h
  have hb : logb 2 ((2 : ℝ) ^ b) = b := by
    rw [logb_pow, logb_self_eq_one (by norm_num), mul_one]
  rw [← logb_scaled h, ← hb, logb_le_logb (by norm_num) (by positivity) (by positivity)]
  norm_cast

theorem le_scaled_iff (h : 0 < q) {k a b : ℕ} : 2 ^ b ≤ q ^ k * 2 ^ a ↔ b ≤ k * logb 2 q + a := by
  have hq : (0 : ℝ) < q := by exact_mod_cast h
  have hb : logb 2 ((2 : ℝ) ^ b) = b := by
    rw [logb_pow, logb_self_eq_one (by norm_num), mul_one]
  rw [← logb_scaled h, ← hb, logb_le_logb (by norm_num) (by positivity) (by positivity)]
  norm_cast

theorem logb_part : 20 + 1 / 2 ^ 20 ≤ logb 2 (2 ^ 20 + 1) := by
  have hsplit : (2 ^ 20 + 1 : ℝ) = 2 ^ 20 * (1 + 1 / 2 ^ 20) := by norm_num
  have hlog := one_sub_inv_le_log_of_pos (show (0 : ℝ) < 1 + 1 / 2 ^ 20 by norm_num)
  have h2 : log 2 < 0.7 := by linarith [log_two_lt_d9]
  have h2' : 0 < log 2 := log_pos (by norm_num)
  rw [hsplit, logb_mul (by norm_num) (by norm_num), logb_pow, logb_self_eq_one (by norm_num)]
  have hpart : 1 / 2 ^ 20 ≤ logb 2 (1 + 1 / 2 ^ 20) := by
    rw [logb, le_div_iff₀ h2']
    norm_num at hlog ⊢
    linarith
  push_cast
  linarith

theorem logb_le_of_scaled {k e : ℕ} (h0 : 0 < q) (hq : q ≤ n)
    (h : n ^ k * (2 ^ 20 + 1) ≤ 2 ^ e * 2 ^ 20) : k * logb 2 q + 1 / 2 ^ 20 ≤ e := by
  have hpow : (q : ℝ) ^ k * (2 ^ 20 + 1) ≤ 2 ^ e * 2 ^ 20 := by
    have hle := (Nat.mul_le_mul_right (2 ^ 20 + 1) (Nat.pow_le_pow_left hq k)).trans h
    exact_mod_cast hle
  have hq0 : (0 : ℝ) < q := by exact_mod_cast h0
  have hlog := logb_le_logb_of_le (b := 2) (by norm_num) (by positivity) hpow
  rw [logb_mul (by positivity) (by positivity), logb_pow, ← pow_add, logb_pow,
    logb_self_eq_one (by norm_num)] at hlog
  have hpart := logb_part
  push_cast at hlog
  generalize logb 2 (2 ^ 20 + 1) = part at hlog hpart
  linarith

theorem le_logb_of_scaled {k e : ℕ} (hq : n < q)
    (h : 2 ^ e * (2 ^ 20 + 1) ≤ (n + 1) ^ k * 2 ^ 20) : e + 1 / 2 ^ 20 ≤ k * logb 2 q := by
  have hpow : (2 : ℝ) ^ e * (2 ^ 20 + 1) ≤ q ^ k * 2 ^ 20 := by
    have hle := h.trans (Nat.mul_le_mul_right (2 ^ 20) (Nat.pow_le_pow_left hq k))
    exact_mod_cast hle
  have h0 : 0 < q := by omega
  have hlog := logb_le_logb_of_le (b := 2) (by norm_num) (by positivity) hpow
  rw [logb_mul (by positivity) (by positivity), logb_pow, logb_self_eq_one (by norm_num),
    logb_scaled h0] at hlog
  have hpart := logb_part
  push_cast at hlog
  generalize logb 2 (2 ^ 20 + 1) = part at hlog hpart
  linarith

theorem Straddles.far {i e : ℕ} (h : Straddles (2 ^ e) n) (he : e + (2 * i + 1) = 15360)
    (h0 : 0 < q) : 1 / 2 ^ 21 ≤ |512 * (15 - logb 2 q) - (i + 1 / 2)| := by
  have he' : (e : ℝ) + (2 * i + 1) = 15360 := by exact_mod_cast he
  rw [le_abs]
  obtain hle | hgt := le_or_gt q n
  · have hlog := logb_le_of_scaled h0 hle h.1
    push_cast at hlog
    left
    linarith
  · have hlog := le_logb_of_scaled hgt h.2
    push_cast at hlog
    right
    linarith

theorem far_from_midpoint {q : ℕ} (h0 : 0 < q) (h : q ≤ 32768) (i : ℤ) :
    1 / 2 ^ 21 ≤ |512 * (15 - logb 2 q) - (i + 1 / 2)| := by
  by_cases hq : q ≤ 16384
  -- Half of a probability costs 512 units more, so the midpoints move along.
  · have hdouble := far_from_midpoint (q := 2 * q) (by omega) (by omega) (i - 512)
    rw [logb_double h0] at hdouble
    push_cast at hdouble
    convert hdouble using 2
    ring
  · obtain ⟨hl, hu⟩ := logb_octave (q := q) (by omega) h
    obtain hneg | hpos := lt_or_ge i 0
    · have hi : (i : ℝ) + 1 ≤ 0 := by exact_mod_cast hneg
      rw [le_abs]
      left
      linarith
    · lift i to ℕ using hpos
      rw [Int.cast_natCast]
      obtain hlt | hge := lt_or_ge i 512
      · apply (midpoints_straddled i hlt).far _ h0
        omega
      · have hi : (512 : ℝ) ≤ i := by exact_mod_cast hge
        rw [le_abs]
        right
        linarith
termination_by 32768 - q

theorem abs_shortfall_sub_lt (hv : log2 (clamped p) = .ok v) :
    |(shortfall v 9 : ℝ) - 512 * (15 - logb 2 (clamped p))| < 1 / 2 := by
  obtain ⟨u, hu, hnear⟩ := log2_clamped p
  rw [hv] at hu
  cases hu
  obtain ⟨hl, hu⟩ := shift_bounds (15 * 2 ^ 57 - v + 2 ^ (56 - 9)) (57 - 9)
  have hbelow := far_from_midpoint (one_le_clamped p) (clamped_le p) (shortfall v 9 - 1)
  have habove := far_from_midpoint (one_le_clamped p) (clamped_le p) (shortfall v 9)
  rw [← shortfall] at hl hu
  push_cast at hl hu hbelow
  generalize (shortfall v 9 : ℝ) = k at *
  generalize logb 2 (clamped p) = x at *
  -- The error of the logarithm alone allows a little more than half a unit.
  have hnear' : |k - 512 * (15 - x)| ≤ 1 / 2 + 1 / 2 ^ 39 := by
    rw [abs_le] at hnear ⊢
    constructor <;> linarith
  rw [abs_le] at hnear'
  rw [le_abs] at hbelow habove
  rw [abs_lt]
  constructor
  · rcases habove with habove | habove <;> linarith
  · rcases hbelow with hbelow | hbelow <;> linarith

theorem cost_rounds (p : ℕ) : ∃ c : ℕ, cost p 9 = .ok c ∧
    |(c : ℝ) - 512 * (15 - logb 2 (clamped p))| < 1 / 2 := by
  obtain ⟨v, hv, -⟩ := log2_clamped p
  have hnonneg := (shortfall_bounds (show 9 < 57 by norm_num) hv).1
  refine ⟨_, cost_eq_shortfall (by norm_num) hv, ?_⟩
  have hcast : (((shortfall v 9).toNat : ℕ) : ℝ) = (shortfall v 9 : ℝ) := by
    exact_mod_cast Int.toNat_of_nonneg hnonneg
  rw [hcast]
  exact abs_shortfall_sub_lt hv

theorem clamped_share {c : Cdf n} (h : c.Ordered) (s : ℕ) :
    clamped (c.share s) = max 1 (c.share s) := by
  have hle := h.tail_le s
  simp only [clamped, Cdf.share]
  omega

theorem cost_correctly_rounded :
    (∀ p, ∃ c, cost p 9 = .ok c ∧ clamped p ^ 1024 * 2 ^ (2 * c) ≤ 2 ^ 15361 ∧
      2 ^ 15360 ≤ clamped p ^ 1024 * 2 ^ (2 * c + 1) ∧
      |(c : ℝ) - 512 * logb 2 (32768 / clamped p)| < 1 / 2) ∧
    ∀ (n : ℕ) (c : Cdf n), c.Ordered → ∀ s < n, ∃ p k, c.probability s = .ok p ∧
      c.symbolCost s = .ok k ∧ (k : ℤ) = round (512 * -logb 2 ((max 1 p : ℕ) / 32768)) ∧
      k ≤ 7680 := by
  constructor
  · intro p
    have hq : 0 < clamped p := one_le_clamped p
    obtain ⟨c, hc, hround⟩ := cost_rounds p
    refine ⟨c, hc, ?_, ?_, ?_⟩
    · apply (scaled_le_iff hq).mpr
      rw [abs_lt] at hround
      push_cast
      linarith
    · apply (le_scaled_iff hq).mpr
      rw [abs_lt] at hround
      push_cast
      linarith
    · rwa [logb_scale_div hq]
  · intro n c h s hs
    obtain ⟨k, hk, hround⟩ := cost_rounds (c.share s)
    rw [clamped_share h] at hround
    refine ⟨_, k, h.probability_eq hs, (h.symbolCost_eq_cost hs).trans hk, ?_, ?_⟩
    · rw [← logb_inv, inv_div, logb_scale_div (by omega), eq_comm, round_eq_iff, Int.cast_natCast]
      rw [abs_lt] at hround
      constructor <;> linarith
    · obtain ⟨k', hle, hk'⟩ := cost_le (c.share s)
      rw [hk] at hk'
      cases hk'
      exact hle

theorem cost_correctly_rounded_zero : ∃ k,
    (Cdf.ofList [32768, 20000, 20000, 63]).probability 2 = .ok 0 ∧
      (Cdf.ofList [32768, 20000, 20000, 63]).symbolCost 2 = .ok k ∧
      (k : ℤ) = round (512 * -logb 2 ((max 1 0 : ℕ) / 32768)) ∧ k ≤ 7680 := by
  obtain ⟨p, k, hp, hk⟩ := cost_correctly_rounded.2 4 (.ofList [32768, 20000, 20000, 63])
    ⟨by decide, by decide⟩ 2 (by norm_num)
  have hzero : (Cdf.ofList [32768, 20000, 20000, 63]).probability 2 = .ok 0 := rfl
  rw [hzero] at hp
  cases hp
  exact ⟨k, hzero, hk⟩

end Logarithm

end MotionEntropy
