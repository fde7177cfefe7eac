import Mathlib.Analysis.Complex.ExponentialBounds
import Mathlib.Analysis.SpecialFunctions.Log.Base
import MotionEntropy.Proofs.FaultPropagation
import MotionEntropy.Proofs.RotationEnvelope

namespace MotionEntropy.Logarithm

open Real

def artanhSum (x : ℚ) : ℕ → ℚ
  | 0 => 0
  | n + 1 => artanhSum x n + x ^ (2 * n + 1) / (2 * n + 1)

def artanhTail (x : ℚ) (n : ℕ) : ℚ := x ^ (2 * n + 1) / (1 - x ^ 2)

theorem artanhSum_cast (x : ℚ) (n : ℕ) :
    (artanhSum x n : ℝ) = ∑ i ∈ Finset.range n, (x : ℝ) ^ (2 * i + 1) / (2 * i + 1) := by
  induction n with
  | zero => simp [artanhSum]
  | succ n ih =>
    rw [artanhSum, Finset.sum_range_succ, ← ih]
    push_cast
    rfl

theorem log_ratio_bounds {x : ℚ} (h0 : 0 ≤ x) (h1 : x < 1) (n : ℕ) :
    2 * (artanhSum x n : ℝ) ≤ log (1 + x) - log (1 - x) ∧
      log (1 + x) - log (1 - x) ≤ 2 * ((artanhSum x n : ℝ) + artanhTail x n) := by
  have h0' : (0 : ℝ) ≤ x := by exact_mod_cast h0
  have h1' : (x : ℝ) < 1 := by exact_mod_cast h1
  have hl := sum_range_le_log_div h0' h1' n
  have hu := log_div_le_sum_range_add h0' h1' n
  rw [log_div (by linarith) (by linarith), ← artanhSum_cast] at hl hu
  rw [artanhTail]
  push_cast
  constructor <;> linarith

theorem log_two_eq : log 2 = log (1 + (1 / 3 : ℚ)) - log (1 - (1 / 3 : ℚ)) := by
  rw [← log_div (by norm_num) (by norm_num)]
  norm_num

/-- The angle of a turn by `2 ^ -k` is right to within a unit, as 40 terms of the series show. -/
def AngleFits (t : ℕ × ℤ) : Prop :=
  0 ≤ t.2 ∧
    t.2 * (2 * (artanhSum (1 / 3) 40 + artanhTail (1 / 3) 40)) -
      2 ^ 61 * (2 * artanhSum (1 / 2 ^ t.1) 40) ≤ 1 ∧
    2 ^ 61 * (2 * (artanhSum (1 / 2 ^ t.1) 40 + artanhTail (1 / 2 ^ t.1) 40)) -
      t.2 * (2 * artanhSum (1 / 3) 40) ≤ 1

instance (t : ℕ × ℤ) : Decidable (AngleFits t) := inferInstanceAs (Decidable (_ ∧ _))

theorem turns_fit : ∀ t ∈ turns, AngleFits t := by decide +kernel

def sweep (ts : List (ℕ × ℤ)) : ℤ := (ts.map fun t => |t.2|).sum

theorem sweep_nonneg (ts : List (ℕ × ℤ)) : 0 ≤ sweep ts := by
  apply List.sum_nonneg
  intro v hv
  obtain ⟨t, -, rfl⟩ := List.mem_map.mp hv
  exact abs_nonneg _

theorem sweep_turns_lt : sweep turns < 2 ^ 63 - 8 := by decide +kernel

theorem abs_angle_sub_le {k : ℕ} {a : ℤ} (h : AngleFits (k, a)) (hk : 1 ≤ k) :
    |(a : ℝ) * log 2 - 2 ^ 61 * (log (1 + 1 / 2 ^ k) - log (1 - 1 / 2 ^ k))| ≤ 1 := by
  obtain ⟨h0, hl, hu⟩ := h
  have ha : (0 : ℝ) ≤ a := by exact_mod_cast h0
  have hx1 : (1 / 2 ^ k : ℚ) < 1 := by
    rw [div_lt_one (by positivity)]
    exact one_lt_pow₀ (by norm_num) (by omega)
  have hx := log_ratio_bounds (x := 1 / 2 ^ k) (by positivity) hx1 40
  have h3 := log_ratio_bounds (x := 1 / 3) (by norm_num) (by norm_num) 40
  rw [← log_two_eq] at h3
  have hl' := (Rat.cast_le (K := ℝ)).mpr hl
  have hu' := (Rat.cast_le (K := ℝ)).mpr hu
  push_cast at hl' hu' hx h3
  have h3l := mul_le_mul_of_nonneg_left h3.1 ha
  have h3u := mul_le_mul_of_nonneg_left h3.2 ha
  rw [abs_le]
  constructor <;> linarith [hx.1, hx.2]

theorem abs_log_one_add_le {h : ℝ} (hh : |h| ≤ 1 / 2) : |log (1 + h)| ≤ 2 * |h| := by
  obtain ⟨hl, hu⟩ := abs_le.mp hh
  have h0 : 0 < 1 + h := by linarith
  have hle := log_le_sub_one_of_pos h0
  have hge := one_sub_inv_le_log_of_pos h0
  have he : 1 - (1 + h)⁻¹ = h / (1 + h) := by field_simp; ring
  rw [he] at hge
  rw [abs_le]
  constructor
  · refine le_trans ?_ hge
    rw [le_div_iff₀ h0]
    rcases abs_cases h with ⟨ha, _⟩ | ⟨ha, _⟩ <;> rw [ha] <;> nlinarith
  · linarith [le_abs_self h, abs_nonneg h]

theorem abs_log_step_le {u v c : ℝ} (hu : 2 ^ 59 ≤ u) (hc : 1 / 2 ≤ c) (h : |v - u * c| ≤ 2) :
    0 < v ∧ |log v - log u - log c| ≤ 1 / 2 ^ 56 := by
  have hu0 : (0 : ℝ) < u := by linarith
  have huc : 2 ^ 58 ≤ u * c := by
    calc (2 : ℝ) ^ 58 = 2 ^ 59 * (1 / 2) := by norm_num
      _ ≤ u * c := mul_le_mul hu hc (by norm_num) hu0.le
  have huc0 : 0 < u * c := by linarith
  have hrel : |(v - u * c) / (u * c)| ≤ 1 / 2 ^ 57 := by
    rw [abs_div, abs_of_pos huc0, div_le_iff₀ huc0]
    linarith
  have hv : v = u * c * (1 + (v - u * c) / (u * c)) := by field_simp; ring
  have hlog := abs_log_one_add_le (hrel.trans (by norm_num))
  have hpos : 0 < 1 + (v - u * c) / (u * c) := by
    have := (abs_le.mp hrel).1
    linarith
  constructor
  · rw [hv]; positivity
  · have he : log v - log u - log c = log (1 + (v - u * c) / (u * c)) := by
      conv_lhs => rw [hv]
      rw [log_mul huc0.ne' hpos.ne', log_mul hu0.ne' (by linarith)]
      ring
    rw [he]
    linarith

namespace Rotation

/-- What a turn leaves as it is but for rounding: the angle turned and the angle left. -/
noncomputable def potential (r : Rotation) : ℝ :=
  r.angle * log 2 + 2 ^ 61 * (log (r.x + r.y) - log (r.x - r.y))

variable {r : Rotation} {e : Envelope} {k : ℕ} {a : ℤ}

theorem Within.sum_bounds (h : r.Within e) (he : e.Roomy) :
    (2 : ℝ) ^ 59 ≤ r.x + r.y ∧ (2 : ℝ) ^ 59 ≤ r.x - r.y := by
  have hx := h.le_x he
  obtain ⟨hl, hu⟩ := abs_le.mp (h.abs_y_le he)
  constructor <;> linarith

theorem abs_turned_sum_le (r : Rotation) (k : ℕ) (a : ℤ) :
    |((r.turned k a).x + (r.turned k a).y : ℝ) - (r.x + r.y) * (1 - r.side * (1 / 2 ^ k))| ≤ 2 ∧
      |((r.turned k a).x - (r.turned k a).y : ℝ) - (r.x - r.y) * (1 + r.side * (1 / 2 ^ k))| ≤
        2 := by
  obtain ⟨hxl, hxu⟩ := shift_bounds r.x k
  obtain ⟨hyl, hyu⟩ := shift_bounds r.y k
  rw [← mul_one_div] at hxl hxu hyl hyu
  simp only [turned]
  rw [abs_le, abs_le]
  obtain ⟨h, -⟩ | ⟨h, -⟩ := r.side_cases <;> rw [h] <;> push_cast <;>
    refine ⟨⟨?_, ?_⟩, ?_, ?_⟩ <;> linarith

theorem side_log (r : Rotation) (t : ℝ) :
    log (1 - r.side * t) - log (1 + r.side * t) = -(r.side * (log (1 + t) - log (1 - t))) := by
  obtain ⟨h, -⟩ | ⟨h, -⟩ := r.side_cases <;> rw [h]
  · rw [Int.cast_one, one_mul]; ring
  · rw [Int.cast_neg, Int.cast_one, neg_one_mul, sub_neg_eq_add, ← sub_eq_add_neg]; ring

theorem abs_side_mul (r : Rotation) (v : ℝ) : |(r.side : ℝ) * v| = |v| := by
  obtain ⟨h, -⟩ | ⟨h, -⟩ := r.side_cases <;> rw [h]
  · rw [Int.cast_one, one_mul]
  · rw [Int.cast_neg, Int.cast_one, neg_one_mul, abs_neg]

theorem Within.potential_turned (h : r.Within e) (he : e.Roomy) (hk : 1 ≤ k)
    (ha : AngleFits (k, a)) : |(r.turned k a).potential - r.potential| ≤ 65 := by
  obtain ⟨hu, hv⟩ := h.sum_bounds he
  obtain ⟨hu', hv'⟩ := abs_turned_sum_le r k a
  obtain ⟨ht0, ht1⟩ := pow_step hk
  have hangle := abs_angle_sub_le ha hk
  have hside := side_log r (1 / 2 ^ k)
  have hst : |(r.side : ℝ) * (1 / 2 ^ k)| ≤ 1 / 2 := by
    rw [abs_side_mul, abs_of_pos ht0]
    exact ht1
  obtain ⟨hst1, hst2⟩ := abs_le.mp hst
  have hlu := (abs_log_step_le hu (by linarith) hu').2
  have hlv := (abs_log_step_le hv (by linarith) hv').2
  have hsplit : (r.turned k a).potential - r.potential =
      r.side * (a * log 2 - 2 ^ 61 * (log (1 + 1 / 2 ^ k) - log (1 - 1 / 2 ^ k))) +
        2 ^ 61 * (log ((r.turned k a).x + (r.turned k a).y) - log (r.x + r.y) -
          log (1 - r.side * (1 / 2 ^ k))) -
        2 ^ 61 * (log ((r.turned k a).x - (r.turned k a).y) - log (r.x - r.y) -
          log (1 + r.side * (1 / 2 ^ k))) := by
    have hangle' : ((r.turned k a).angle : ℝ) = r.angle + r.side * a := by
      simp only [Rotation.turned]; push_cast; ring
    simp only [potential, hangle']
    linear_combination (2 ^ 61 : ℝ) * hside
  have h1 : |(r.side : ℝ) * (a * log 2 - 2 ^ 61 * (log (1 + 1 / 2 ^ k) - log (1 - 1 / 2 ^ k)))| ≤
      1 := by
    rw [abs_side_mul]
    exact hangle
  rw [hsplit]
  rw [abs_le] at h1 hlu hlv ⊢
  constructor <;> linarith

theorem abs_turned_angle_le (r : Rotation) (k : ℕ) (a : ℤ) :
    |(r.turned k a).angle| ≤ |r.angle| + |a| := by
  have hs : |r.side * a| = |a| := by
    obtain ⟨h, -⟩ | ⟨h, -⟩ := r.side_cases <;> rw [h, abs_mul] <;> simp
  rw [← hs]
  exact abs_add_le _ _

theorem Within.foldlM_turn {ts : List (ℕ × ℤ)} (h : r.Within e) (he : e.Lasts ts)
    (ht : ∀ t ∈ ts, AngleFits t) (hsum : |r.angle| + sweep ts < 2 ^ 63) :
    ∃ r' : Rotation, ts.foldlM turn r = .ok r' ∧
      r'.Within (ts.foldl (fun e t => e.turn t.1) e) ∧
      |r'.angle| ≤ |r.angle| + sweep ts ∧ |r'.potential - r.potential| ≤ 65 * ts.length := by
  induction ts generalizing r e with
  | nil => exact ⟨r, rfl, h, by simp [sweep], by simp⟩
  | cons t ts ih =>
    obtain ⟨he, hk, hlast⟩ := he
    have hw := h.turned he hk t.2
    have hangle := abs_turned_angle_le r t.1 t.2
    have hts := sweep_nonneg ts
    have hcons : sweep (t :: ts) = |t.2| + sweep ts := rfl
    rw [hcons] at hsum ⊢
    have hstep : r.turn t = .ok (r.turned t.1 t.2) := by
      obtain ⟨hx, hy⟩ := hw.fits hlast.roomy
      exact turn_eq hx hy (by omega)
    obtain ⟨r', hrun, hw', ha', hp'⟩ := ih hw hlast (fun s hs => ht s (.tail _ hs)) (by omega)
    refine ⟨r', ?_, hw', by omega, ?_⟩
    · rw [List.foldlM_cons, hstep]
      exact hrun
    · have hp := h.potential_turned he hk (ht t (.head _))
      rw [List.length_cons]
      push_cast
      rw [abs_le] at hp hp' ⊢
      constructor <;> linarith

theorem Within.abs_log_le (h : r.Within e) (he : e.Roomy) (hr : e.ratio ≤ 1 / 2 ^ 56) :
    |log (r.x + r.y) - log (r.x - r.y)| ≤ 1 / 2 ^ 54 := by
  have hx : (0 : ℝ) < r.x := lt_of_lt_of_le (by positivity) (h.le_x he)
  have hr' := (Rat.cast_le (K := ℝ)).mpr hr
  push_cast at hr'
  have hy : |(r.y / r.x : ℝ)| ≤ 1 / 2 ^ 56 := by
    rw [abs_div, abs_of_pos hx, div_le_iff₀ hx]
    exact h.y_le.trans (mul_le_mul_of_nonneg_right hr' hx.le)
  have hneg : |(-(r.y / r.x) : ℝ)| ≤ 1 / 2 ^ 56 := by rwa [abs_neg]
  have hu : (r.x + r.y : ℝ) = r.x * (1 + r.y / r.x) := by field_simp
  have hv : (r.x - r.y : ℝ) = r.x * (1 + -(r.y / r.x)) := by field_simp; ring
  have hlu := abs_log_one_add_le (hy.trans (by norm_num))
  have hlv := abs_log_one_add_le (hneg.trans (by norm_num))
  have hyb := abs_le.mp hy
  rw [hu, hv, log_mul hx.ne' (by linarith), log_mul hx.ne' (by linarith)]
  rw [abs_le] at hlu hlv ⊢
  constructor <;> linarith

end Rotation

theorem ofMantissa_eq {w : ℤ} {r : Rotation} (hw : w ≠ one) (h : one ≤ w) (h' : w ≤ 2 * one)
    (hrun : turns.foldlM Rotation.turn ⟨w + one, w - one, 0⟩ = .ok r)
    (ha : |r.angle| < 2 ^ 63 - 8) : ofMantissa w = .ok ((r.angle + 8) >>> (4 : ℕ)) := by
  simp only [one] at h h'
  rw [abs_lt] at ha
  have hx := int64_of_abs_lt .add (v := w + one) (by simp only [one]; rw [abs_lt]; omega)
  have hy := int64_of_abs_lt .subtract (v := w - one) (by simp only [one]; rw [abs_lt]; omega)
  have hz := int64_of_abs_lt .add (v := r.angle + 8) (by rw [abs_lt]; omega)
  rw [ofMantissa, if_neg hw, hx, hy, ok_bind, ok_bind, hrun, ok_bind, hz]
  rfl

theorem abs_shift_sub_le {a : ℤ} {x : ℝ} (h : |(a : ℝ) - 2 ^ 61 * x| ≤ 6400) :
    |(((a + 8) >>> (4 : ℕ) : ℤ) : ℝ) - 2 ^ 57 * x| ≤ 2 ^ 9 - 1 := by
  obtain ⟨hl, hu⟩ := shift_bounds (a + 8) 4
  have hscale : (2 : ℝ) ^ 61 * x = 16 * (2 ^ 57 * x) := by ring
  rw [hscale, abs_le] at h
  push_cast at hl hu
  rw [abs_le]
  constructor <;> linarith

theorem one_cast : ((one : ℤ) : ℝ) = 2 ^ 61 := by norm_num [one]

theorem potential_initial {w : ℤ} (h : one ≤ w) : Rotation.potential ⟨w + one, w - one, 0⟩ =
    2 ^ 61 * (logb 2 (w / 2 ^ 61) * log 2) := by
  have hw : (2 : ℝ) ^ 61 ≤ w := by
    rw [← one_cast]
    exact_mod_cast h
  have hw0 : (0 : ℝ) < w := by linarith
  have hsum : (w + 2 ^ 61 + (w - 2 ^ 61) : ℝ) = 2 * w := by ring
  have hdiff : (w + 2 ^ 61 - (w - 2 ^ 61) : ℝ) = 2 * 2 ^ 61 := by ring
  rw [logb, div_mul_cancel₀ _ (by positivity)]
  simp only [Rotation.potential]
  push_cast
  rw [one_cast, hsum, hdiff, log_div hw0.ne' (by norm_num), log_mul (by norm_num) hw0.ne',
    log_mul (by norm_num) (by norm_num)]
  ring

theorem abs_le_of_mul_log_two {v : ℝ} (h : |v * log 2| ≤ 4353) : |v| ≤ 6400 := by
  have h2 : 0.69 < log 2 := lt_trans (by norm_num) log_two_gt_d9
  have h0 : 0 < log 2 := by linarith
  rw [abs_mul, abs_of_pos h0] at h
  by_contra! hc
  nlinarith

theorem ofMantissa_near {w : ℤ} (h : one ≤ w) (h' : w ≤ 2 * one) :
    ∃ z, ofMantissa w = .ok z ∧ |(z : ℝ) - 2 ^ 57 * logb 2 (w / 2 ^ 61)| ≤ 2 ^ 9 - 1 := by
  by_cases hw : w = one
  · refine ⟨0, if_pos hw, ?_⟩
    rw [hw, one_cast, div_self (by norm_num), logb_one]
    norm_num
  · have hsum := sweep_turns_lt
    obtain ⟨r, hrun, hr, ha, hp⟩ := (Rotation.initial_within h h' 0).foldlM_turn
      Envelope.initial_lasts turns_fit (by rw [abs_zero]; omega)
    rw [abs_zero, zero_add] at ha
    refine ⟨_, ofMantissa_eq hw h h' hrun (by omega), ?_⟩
    apply abs_shift_sub_le
    apply abs_le_of_mul_log_two
    -- Each of the 65 turns loses at most 65, and what is left of `y` after them at most 128.
    have hlog := hr.abs_log_le (by decide +kernel) Envelope.final_ratio_le
    have hlen : (turns.length : ℝ) = 65 := by
      rw [show turns.length = 65 from rfl]
      norm_num
    rw [potential_initial h, hlen, Rotation.potential] at hp
    rw [abs_le] at hp hlog ⊢
    constructor <;> linarith

end MotionEntropy.Logarithm
