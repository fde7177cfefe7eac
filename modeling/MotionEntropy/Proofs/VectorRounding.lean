import MotionEntropy.Proofs.CodeInjectivity
import MotionEntropy.Proofs.DifferenceWriting

namespace MotionEntropy

/-- The multiple of `step` nearest to `v`, and of two that are equally near the one nearer zero. -/
def nearest (step : ℕ) (v : ℤ) : ℤ :=
  v.sign * (step * ((2 * v.natAbs + step - 1) / (2 * step)) : ℕ)

variable {p : Precision} {step k : ℕ} {v : ℤ}

theorem dvd_nearest : (step : ℤ) ∣ nearest step v := by
  rw [nearest, Nat.cast_mul]
  exact (dvd_mul_right _ _).mul_left _

theorem nearest_neg : nearest step (-v) = -nearest step v := by
  rw [nearest, nearest, Int.sign_neg, Int.natAbs_neg, Int.neg_mul]

theorem nearest_natCast (p : Precision) (k : ℕ) : nearest p.step k =
    if k % p.step ≤ p.step / 2 then (k : ℤ) - (k % p.step : ℕ)
    else (k : ℤ) - (k % p.step : ℕ) + p.step := by
  have hnearest : ((p.step * ((2 * k + p.step - 1) / (2 * p.step)) : ℕ) : ℤ) =
      if k % p.step ≤ p.step / 2 then (k : ℤ) - (k % p.step : ℕ)
      else (k : ℤ) - (k % p.step : ℕ) + p.step := by
    cases p <;> simp only [Precision.step] <;> omega
  rw [← hnearest, nearest, Int.natAbs_natCast]
  obtain rfl | hk := Nat.eq_zero_or_pos k
  · have hzero : (2 * 0 + p.step - 1) / (2 * p.step) = 0 := by cases p <;> rfl
    rw [hzero, Nat.mul_zero, Int.natCast_zero, Int.mul_zero]
  · rw [Int.sign_natCast_of_ne_zero hk.ne', Int.one_mul]

theorem nearest_eq (p : Precision) (v : ℤ) : nearest p.step v =
    if (v.tmod p.step).natAbs ≤ p.step / 2 then v - v.tmod p.step
    else if 0 < v.tmod p.step then v - v.tmod p.step + p.step
    else v - v.tmod p.step - p.step := by
  obtain ⟨k, rfl | rfl⟩ := v.eq_nat_or_neg
  · have hrest : (k : ℤ).tmod p.step = (k % p.step : ℕ) := rfl
    rw [hrest, nearest_natCast, Int.natAbs_natCast]
    split_ifs <;> omega
  · have hrest : (-(k : ℤ)).tmod p.step = -(k % p.step : ℕ) := Int.neg_tmod ..
    rw [hrest, nearest_neg, nearest_natCast, Int.natAbs_neg, Int.natAbs_natCast]
    split_ifs <;> omega

namespace MotionVector

variable {mv : MotionVector}

theorem roundComponent_eq {c : Int16} (h : -componentLimit < c.toInt ∧ c.toInt < componentLimit) :
    ∃ r, roundComponent p.step c = .ok r ∧ r.toInt = nearest p.step c.toInt := by
  have hstep : p.step ≤ 8 := by cases p <;> decide
  have hrest : (c.toInt.tmod p.step).natAbs < p.step := by
    rw [Int.natAbs_tmod]
    exact Nat.mod_lt _ p.step_pos
  simp only [componentLimit] at h
  rw [roundComponent, nearest_eq]
  generalize c.toInt.tmod p.step = rest at *
  have hinner : IsWord (c.toInt - rest) := ⟨by omega, by omega⟩
  rw [int16_of_word hinner, ok_bind, toInt_ofInt hinner]
  by_cases hhalf : rest.natAbs ≤ p.step / 2
  · rw [if_pos hhalf, if_pos hhalf]
    exact ⟨_, rfl, toInt_ofInt hinner⟩
  · rw [if_neg hhalf, if_neg hhalf]
    by_cases hpos : 0 < rest
    · have hup : IsWord (c.toInt - rest + p.step) := ⟨by omega, by omega⟩
      rw [if_pos hpos, if_pos hpos, int16_of_word hup]
      exact ⟨_, rfl, toInt_ofInt hup⟩
    · have hdown : IsWord (c.toInt - rest - p.step) := ⟨by omega, by omega⟩
      rw [if_neg hpos, if_neg hpos, int16_of_word hdown]
      exact ⟨_, rfl, toInt_ofInt hdown⟩

theorem lower_eq (h : mv.IsValid) :
    ∃ r, mv.lower p = .ok r ∧ ∀ a, r.along a = nearest p.step (mv.along a) := by
  obtain ⟨row, hrow, hrow'⟩ := roundComponent_eq (p := p) h.1
  obtain ⟨col, hcol, hcol'⟩ := roundComponent_eq (p := p) h.2
  refine ⟨⟨row, col⟩, ?_, Axis.forall_iff.mpr ⟨hrow', hcol'⟩⟩
  rw [lower, require_of h, ok_bind, hrow, ok_bind, hcol, ok_bind, pure_eq_ok]

end MotionVector

end MotionEntropy
