import Mathlib.Analysis.SpecialFunctions.Log.Deriv
import MotionEntropy.Logarithm

namespace MotionEntropy.Logarithm

theorem shift_bounds (v : ℤ) (k : ℕ) :
    (v : ℝ) / 2 ^ k - 1 < (v >>> k : ℤ) ∧ ((v >>> k : ℤ) : ℝ) ≤ v / 2 ^ k := by
  rw [Int.shiftRight_eq_div_pow]
  have h0 : (0 : ℤ) < 2 ^ k := by positivity
  have hle := Int.ediv_mul_le v h0.ne'
  have hlt := Int.lt_ediv_add_one_mul_self v h0
  have h0' : (0 : ℝ) < 2 ^ k := by positivity
  push_cast
  constructor
  · rw [sub_lt_iff_lt_add, div_lt_iff₀ h0']
    exact_mod_cast hlt
  · rw [le_div_iff₀ h0']
    exact_mod_cast hle

theorem int64_of_abs_lt (op : Operation) {v : ℤ} (h : |v| < 2 ^ 63) :
    Checked.int64 op v = .ok v := by
  rw [abs_lt] at h
  exact if_pos (by omega)

namespace Rotation

variable (r : Rotation) (k : ℕ) (a : ℤ)

def side : ℤ := if r.y < 0 then -1 else 1

def turned : Rotation :=
  ⟨r.x - r.side * (r.y >>> k), r.y - r.side * (r.x >>> k), r.angle + r.side * a⟩

theorem side_cases : (r.side = 1 ∧ 0 ≤ r.y ∧ |(r.y : ℝ)| = r.y) ∨
    (r.side = -1 ∧ r.y < 0 ∧ |(r.y : ℝ)| = -r.y) := by
  by_cases h : r.y < 0
  · exact .inr ⟨if_pos h, h, abs_of_neg (by exact_mod_cast h)⟩
  · exact .inl ⟨if_neg h, not_lt.mp h, abs_of_nonneg (by exact_mod_cast not_lt.mp h)⟩

theorem turn_eq {r : Rotation} {k : ℕ} {a : ℤ} (hx : |(r.turned k a).x| < 2 ^ 63)
    (hy : |(r.turned k a).y| < 2 ^ 63) (ha : |(r.turned k a).angle| < 2 ^ 63) :
    r.turn (k, a) = .ok (r.turned k a) := by
  have toward (v : ℤ) : (if r.y < 0 then -v else v) = r.side * v := by
    rw [side]; split <;> ring
  simp only [turned] at hx hy ha
  simp only [Rotation.turn, toward, int64_of_abs_lt _ ha, int64_of_abs_lt _ hx,
    int64_of_abs_lt _ hy]
  rfl

theorem turned_x_le : (r.turned k a).x ≤ r.x := by
  have h0 : (0 : ℤ) < 2 ^ k := by positivity
  simp only [turned, Int.shiftRight_eq_div_pow]
  obtain ⟨h, hy, -⟩ | ⟨h, hy, -⟩ := r.side_cases
  · have := Int.ediv_nonneg hy h0.le
    rw [h]; push_cast; omega
  · have := Int.ediv_neg_of_neg_of_pos hy h0
    rw [h]; push_cast; omega

theorem le_turned_x : (r.x : ℝ) - |(r.y : ℝ)| / 2 ^ k - 1 ≤ (r.turned k a).x := by
  obtain ⟨hl, hu⟩ := shift_bounds r.y k
  obtain ⟨h, -, hy⟩ | ⟨h, -, hy⟩ := r.side_cases
  · simp only [turned, h, hy]; push_cast; linarith
  · simp only [turned, h, hy]; push_cast; rw [neg_div]; linarith

theorem abs_turned_y_le : |((r.turned k a).y : ℝ)| ≤
    max ((r.x : ℝ) / 2 ^ k - |(r.y : ℝ)|) (|(r.y : ℝ)| - r.x / 2 ^ k + 1) := by
  obtain ⟨hl, hu⟩ := shift_bounds r.x k
  rw [le_max_iff]
  obtain ⟨h, -, hy⟩ | ⟨h, -, hy⟩ := r.side_cases
  · simp only [turned, h, hy]
    push_cast
    rcases abs_cases ((r.y : ℝ) - 1 * ((r.x >>> k : ℤ) : ℝ)) with ⟨he, -⟩ | ⟨he, -⟩
    · right; rw [he]; linarith
    · left; rw [he]; linarith
  · simp only [turned, h, hy]
    push_cast
    rcases abs_cases ((r.y : ℝ) - -1 * ((r.x >>> k : ℤ) : ℝ)) with ⟨he, -⟩ | ⟨he, -⟩
    · left; rw [he]; linarith
    · right; rw [he]; linarith

end Rotation

/-- Bounds on a rotation under way: on `x` from below, and on `|y| / x` from above. -/
structure Envelope where
  low : ℚ
  ratio : ℚ

namespace Envelope

def slack : ℚ := 1 / 2 ^ 61

def kept (e : Envelope) (k : ℕ) : ℚ := 1 - e.ratio / 2 ^ k - slack

def turn (e : Envelope) (k : ℕ) : Envelope where
  low := e.low * e.kept k
  ratio := max ((1 + 2 * slack) / 2 ^ k) ((e.ratio - 1 / 2 ^ k + slack) / e.kept k)

def Roomy (e : Envelope) : Prop := 2 ^ 61 ≤ e.low ∧ 0 ≤ e.ratio ∧ e.ratio ≤ 3 / 4

instance (e : Envelope) : Decidable e.Roomy := inferInstanceAs (Decidable (_ ∧ _))

def Lasts : Envelope → List (ℕ × ℤ) → Prop
  | e, [] => e.Roomy
  | e, t :: ts => e.Roomy ∧ 1 ≤ t.1 ∧ (e.turn t.1).Lasts ts

instance decidableLasts : (e : Envelope) → (ts : List (ℕ × ℤ)) → Decidable (e.Lasts ts)
  | e, [] => inferInstanceAs (Decidable e.Roomy)
  | e, t :: ts =>
    have := decidableLasts (e.turn t.1) ts
    inferInstanceAs (Decidable (_ ∧ _))

theorem Lasts.roomy {e : Envelope} : ∀ {ts : List (ℕ × ℤ)}, e.Lasts ts → e.Roomy
  | [], h => h
  | _ :: _, h => h.1

def initial : Envelope := ⟨2 ^ 62, 1 / 3⟩

def final : Envelope := turns.foldl (fun e t => e.turn t.1) initial

theorem initial_lasts : initial.Lasts turns := by decide +kernel

theorem final_ratio_le : final.ratio ≤ 1 / 2 ^ 56 := by decide +kernel

end Envelope

namespace Rotation

structure Within (r : Rotation) (e : Envelope) : Prop where
  low_le : (e.low : ℝ) ≤ r.x
  x_le : r.x ≤ 3 * one
  y_le : |(r.y : ℝ)| ≤ e.ratio * r.x

variable {r : Rotation} {e : Envelope} {k : ℕ}

theorem Within.le_x (h : r.Within e) (he : e.Roomy) : (2 : ℝ) ^ 61 ≤ r.x := by
  have : ((2 ^ 61 : ℚ) : ℝ) ≤ e.low := Rat.cast_le.mpr he.1
  push_cast at this
  exact this.trans h.low_le

theorem Within.abs_y_le (h : r.Within e) (he : e.Roomy) : |(r.y : ℝ)| ≤ 3 / 4 * r.x := by
  have hr : ((e.ratio : ℚ) : ℝ) ≤ (3 / 4 : ℚ) := Rat.cast_le.mpr he.2.2
  push_cast at hr
  exact h.y_le.trans
    (mul_le_mul_of_nonneg_right hr ((by positivity : (0 : ℝ) ≤ 2 ^ 61).trans (h.le_x he)))

theorem Within.one_le_slack (h : r.Within e) (he : e.Roomy) :
    1 ≤ (Envelope.slack : ℝ) * r.x := by
  have hx := h.le_x he
  rw [Envelope.slack]
  push_cast
  linarith

theorem pow_step (hk : 1 ≤ k) : (0 : ℝ) < 1 / 2 ^ k ∧ (1 : ℝ) / 2 ^ k ≤ 1 / 2 := by
  refine ⟨by positivity, one_div_le_one_div_of_le (by norm_num) ?_⟩
  calc (2 : ℝ) = 2 ^ 1 := by norm_num
    _ ≤ 2 ^ k := pow_le_pow_right₀ (by norm_num) hk

theorem slack_bounds : (0 : ℝ) < Envelope.slack ∧ (Envelope.slack : ℝ) ≤ 1 / 8 := by
  rw [Envelope.slack]
  constructor <;> norm_num

theorem kept_pos (he : e.Roomy) (hk : 1 ≤ k) : (0 : ℝ) < e.kept k := by
  have hr : ((e.ratio : ℚ) : ℝ) ≤ (3 / 4 : ℚ) := Rat.cast_le.mpr he.2.2
  have hs := slack_bounds.2
  obtain ⟨h0, h1⟩ := pow_step hk
  push_cast at hr
  have := mul_le_mul hr h1 h0.le (by norm_num)
  simp only [Envelope.kept]
  push_cast
  rw [← mul_one_div]
  linarith

theorem Within.kept_mul_le (h : r.Within e) (he : e.Roomy) (hk : 1 ≤ k) (a : ℤ) :
    r.x * (e.kept k : ℝ) ≤ (r.turned k a).x := by
  have hx := r.le_turned_x k a
  have hy := mul_le_mul_of_nonneg_right h.y_le (pow_step hk).1.le
  have hs := h.one_le_slack he
  simp only [Envelope.kept]
  push_cast
  rw [← mul_one_div] at hx ⊢
  linarith

theorem Within.overshoot_le (h : r.Within e) (he : e.Roomy) (hk : 1 ≤ k) (a : ℤ) :
    (r.x : ℝ) / 2 ^ k - |(r.y : ℝ)| ≤ (1 + 2 * Envelope.slack) / 2 ^ k * (r.turned k a).x := by
  obtain ⟨h0, h1⟩ := pow_step hk
  obtain ⟨hs0, hs1⟩ := slack_bounds
  have hs := mul_le_mul_of_nonneg_left (h.one_le_slack he) h0.le
  have hx := r.le_turned_x k a
  have hdiv (v : ℝ) : v / 2 ^ k = v * (1 / 2 ^ k) := (mul_one_div _ _).symm
  rw [hdiv] at hx
  rw [hdiv, hdiv (1 + 2 * _)]
  generalize (1 : ℝ) / 2 ^ k = t at *
  have hc : 0 ≤ (1 + 2 * (Envelope.slack : ℝ)) * t := mul_nonneg (by linarith) h0.le
  have hy : |(r.y : ℝ)| * ((1 + 2 * Envelope.slack) * t * t) ≤ |(r.y : ℝ)| := by
    refine mul_le_of_le_one_right (abs_nonneg _) ?_
    nlinarith
  calc (r.x : ℝ) * t - |(r.y : ℝ)|
      ≤ (1 + 2 * Envelope.slack) * t * (r.x - |(r.y : ℝ)| * t - 1) := by nlinarith
    _ ≤ _ := mul_le_mul_of_nonneg_left hx hc

theorem Within.approach_le (h : r.Within e) (he : e.Roomy) (hk : 1 ≤ k) (a : ℤ) :
    |(r.y : ℝ)| - r.x / 2 ^ k + 1 ≤ ((e.turn k).ratio : ℝ) * (r.turned k a).x := by
  have hkept := kept_pos he hk
  have hx : (0 : ℝ) < r.x := lt_of_lt_of_le (by positivity) (h.le_x he)
  have hx' := h.kept_mul_le he hk a
  have hx0 := (mul_pos hx hkept).le.trans hx'
  have hstep : |(r.y : ℝ)| - r.x / 2 ^ k + 1 ≤ (e.ratio - 1 / 2 ^ k + Envelope.slack) * r.x := by
    have := h.y_le
    have := h.one_le_slack he
    rw [← mul_one_div]
    linarith
  simp only [Envelope.turn]
  push_cast
  rcases le_total 0 ((e.ratio : ℝ) - 1 / 2 ^ k + Envelope.slack) with hn | hn
  · refine le_trans ?_ (mul_le_mul_of_nonneg_right (le_max_right _ _) hx0)
    rw [div_mul_eq_mul_div, le_div_iff₀ hkept]
    calc _ ≤ (e.ratio - 1 / 2 ^ k + Envelope.slack) * r.x * (e.kept k : ℝ) :=
          mul_le_mul_of_nonneg_right hstep hkept.le
      _ ≤ _ := by rw [mul_assoc]; exact mul_le_mul_of_nonneg_left hx' hn
  · have hs := slack_bounds.1
    have hmax : 0 ≤ (1 + 2 * (Envelope.slack : ℝ)) / 2 ^ k := by positivity
    exact hstep.trans ((mul_nonpos_of_nonpos_of_nonneg hn hx.le).trans
      (mul_nonneg (hmax.trans (le_max_left _ _)) hx0))

theorem Within.turned (h : r.Within e) (he : e.Roomy) (hk : 1 ≤ k) (a : ℤ) :
    (r.turned k a).Within (e.turn k) := by
  have hkept := kept_pos he hk
  have hx' := h.kept_mul_le he hk a
  have hx0 : (0 : ℝ) ≤ (r.turned k a).x :=
    (mul_nonneg ((by positivity : (0 : ℝ) ≤ 2 ^ 61).trans (h.le_x he)) hkept.le).trans hx'
  refine ⟨?_, (r.turned_x_le k a).trans h.x_le, ?_⟩
  · simp only [Envelope.turn]
    push_cast
    exact (mul_le_mul_of_nonneg_right h.low_le hkept.le).trans hx'
  -- Either `y` overshoots zero, by less than it was moved, or it comes nearer to zero.
  · refine (r.abs_turned_y_le k a).trans (max_le ?_ (h.approach_le he hk a))
    refine (h.overshoot_le he hk a).trans (mul_le_mul_of_nonneg_right ?_ hx0)
    simp only [Envelope.turn]
    push_cast
    exact le_max_left _ _

theorem Within.fits (h : r.Within e) (he : e.Roomy) : |r.x| < 2 ^ 63 ∧ |r.y| < 2 ^ 63 := by
  have hx : (2 : ℝ) ^ 61 ≤ r.x := h.le_x he
  have hx' : ((r.x : ℤ) : ℝ) ≤ 3 * 2 ^ 61 := by exact_mod_cast h.x_le
  have hy := h.abs_y_le he
  constructor
  · rw [abs_lt]
    constructor
    · have : (0 : ℝ) ≤ r.x := (by positivity : (0 : ℝ) ≤ 2 ^ 61).trans hx
      have : (0 : ℤ) ≤ r.x := by exact_mod_cast this
      omega
    · have := h.x_le
      simp only [one] at this
      omega
  · have : |(r.y : ℝ)| < 2 ^ 63 := by linarith
    exact_mod_cast this

theorem initial_within {w : ℤ} (h : one ≤ w) (h' : w ≤ 2 * one) (a : ℤ) :
    Within ⟨w + one, w - one, a⟩ Envelope.initial := by
  have h1 : (2 : ℝ) ^ 61 ≤ w := by exact_mod_cast h
  have h2 : (w : ℝ) ≤ 2 * 2 ^ 61 := by exact_mod_cast h'
  have h3 : ((one : ℤ) : ℝ) = 2 ^ 61 := by norm_num [one]
  refine ⟨?_, ?_, ?_⟩
  · simp only [Envelope.initial]; push_cast; linarith
  · simp only; omega
  · simp only [Envelope.initial]
    push_cast
    rw [abs_of_nonneg (by linarith)]
    linarith

end Rotation

end MotionEntropy.Logarithm
