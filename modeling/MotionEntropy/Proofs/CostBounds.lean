import MotionEntropy.Proofs.LogarithmScaling

namespace MotionEntropy.Logarithm

open Real

def clamped (p : ℕ) : ℕ := max 1 (min p 32768)

/-- What the logarithm `v` is short of 15 bits, to the nearest multiple of `2 ^ -shift` bits. -/
def shortfall (v : ℤ) (shift : ℕ) : ℤ := (15 * 2 ^ 57 - v + 2 ^ (56 - shift)) >>> (57 - shift)

variable {p p' q q' shift : ℕ} {v v' : ℤ}

theorem one_le_clamped (p : ℕ) : 1 ≤ clamped p := le_max_left _ _

theorem clamped_le (p : ℕ) : clamped p ≤ 32768 := by
  simp only [clamped]
  omega

theorem clamped_of_mem (h : 1 ≤ p) (h' : p ≤ 32768) : clamped p = p := by
  simp only [clamped]
  omega

theorem clamped_mono (h : p ≤ p') : clamped p ≤ clamped p' := by
  simp only [clamped]
  omega

theorem log2_clamped (p : ℕ) : ∃ v : ℤ, log2 (clamped p) = .ok v ∧
    |(v : ℝ) - 2 ^ 57 * logb 2 (clamped p)| ≤ 2 ^ 9 - 1 := by
  have h1 := one_le_clamped p
  have h2 := clamped_le p
  exact log2_near (w := clamped p) (by omega) (by omega)

theorem logb_gap (h0 : 0 < q) (h : q < q') (h' : q' ≤ 32768) :
    logb 2 q + 1 / 2 ^ 15 ≤ logb 2 q' := by
  have hq : (0 : ℝ) < q := by exact_mod_cast h0
  have hlt : (q : ℝ) + 1 ≤ q' := by exact_mod_cast h
  have hle : (q' : ℝ) ≤ 2 ^ 15 := by exact_mod_cast h'
  have hq' : (0 : ℝ) < q' := by linarith
  have hlog := one_sub_inv_le_log_of_pos (div_pos hq' hq)
  have hstep : 1 / 2 ^ 15 ≤ 1 - ((q' : ℝ) / q)⁻¹ := by
    rw [inv_div, one_sub_div hq'.ne', div_le_div_iff₀ (by positivity) hq']
    nlinarith
  have h2 : log 2 < 1 := by linarith [log_two_lt_d9]
  have h2' : 0 < log 2 := log_pos (by norm_num)
  rw [log_div hq'.ne' hq.ne'] at hlog
  rw [logb, logb, ← sub_nonneg, ← sub_sub, ← sub_div, sub_nonneg, le_div_iff₀ h2']
  nlinarith

theorem log2_clamped_mono (h : p ≤ p') (hv : log2 (clamped p) = .ok v)
    (hv' : log2 (clamped p') = .ok v') : v ≤ v' := by
  obtain ⟨u, hu, hnear⟩ := log2_clamped p
  obtain ⟨u', hu', hnear'⟩ := log2_clamped p'
  rw [hv] at hu
  rw [hv'] at hu'
  cases hu
  cases hu'
  obtain he | hlt := (clamped_mono h).eq_or_lt
  · rw [he, hv'] at hv
    cases hv
    exact le_rfl
  · have hgap := logb_gap (one_le_clamped p) hlt (clamped_le p')
    rw [abs_le] at hnear hnear'
    have hle : (v : ℝ) ≤ v' := by linarith
    exact_mod_cast hle

theorem log2_clamped_bounds (hv : log2 (clamped p) = .ok v) : 0 ≤ v ∧ v ≤ 15 * 2 ^ 57 := by
  have htop : log2 (clamped (max p 32768)) = .ok (15 * 2 ^ 57) := by
    have hp : clamped (max p 32768) = 32768 := by simp [clamped]
    rw [hp]
    exact log2_pow (k := 15) (by norm_num)
  constructor
  · exact log2_clamped_mono p.zero_le log2_one hv
  · exact log2_clamped_mono (le_max_left _ _) hv htop

theorem log2_clamped_double (h : 1 ≤ p) (h' : p ≤ 16384) (hv : log2 (clamped p) = .ok v) :
    log2 (clamped (2 * p)) = .ok (v + 2 ^ 57) := by
  rw [clamped_of_mem h (by omega)] at hv
  obtain ⟨u, hu, hdouble⟩ := log2_mul_pow (w := p) (k := 1) (by omega) (by omega)
  rw [hv] at hu
  cases hu
  rw [clamped_of_mem (by omega) (by omega), mul_comm 2 p]
  push_cast
  simpa using hdouble

theorem shortfall_sub_whole (hs : shift < 57) (k : ℤ) :
    shortfall (v - k * 2 ^ 57) shift = shortfall v shift + k * 2 ^ shift := by
  have hsplit : (2 : ℤ) ^ 57 = 2 ^ shift * 2 ^ (57 - shift) := by
    rw [← pow_add, Nat.add_sub_cancel' hs.le]
  have hsum : 15 * 2 ^ 57 - (v - k * 2 ^ 57) + 2 ^ (56 - shift) =
      15 * 2 ^ 57 - v + 2 ^ (56 - shift) + k * 2 ^ shift * 2 ^ (57 - shift) := by
    rw [mul_assoc, ← hsplit]
    ring
  rw [shortfall, shortfall, Int.shiftRight_eq_div_pow, Int.shiftRight_eq_div_pow, hsum]
  push_cast
  exact Int.add_mul_ediv_right _ _ (by positivity)

theorem shortfall_antitone (h : v ≤ v') (shift : ℕ) : shortfall v' shift ≤ shortfall v shift := by
  simp only [shortfall, Int.shiftRight_eq_div_pow]
  apply Int.ediv_le_ediv (by positivity)
  linarith

theorem shortfall_top (hs : shift < 57) : shortfall (15 * 2 ^ 57) shift = 0 := by
  rw [shortfall, Int.shiftRight_eq_div_pow, sub_self, zero_add]
  push_cast
  apply Int.ediv_eq_zero_of_lt (by positivity)
  exact pow_lt_pow_right₀ (by norm_num) (by omega)

theorem shortfall_bounds (hs : shift < 57) (hv : log2 (clamped p) = .ok v) :
    0 ≤ shortfall v shift ∧ shortfall v shift ≤ 15 * 2 ^ shift := by
  obtain ⟨hl, hu⟩ := log2_clamped_bounds hv
  have hzero : shortfall 0 shift = 15 * 2 ^ shift := by
    rw [← sub_self (15 * 2 ^ 57), shortfall_sub_whole hs, shortfall_top hs, zero_add]
  constructor
  · rw [← shortfall_top hs]
    exact shortfall_antitone hu shift
  · rw [← hzero]
    exact shortfall_antitone hl shift

theorem cost_eq (hs : shift < 57) (hv : log2 (clamped p) = .ok v) :
    cost p shift = .ok (shortfall v shift % 4294967296).toNat := by
  obtain ⟨hl, hu⟩ := log2_clamped_bounds hv
  have hround : (0 : ℤ) < 2 ^ (56 - shift) ∧ (2 : ℤ) ^ (56 - shift) ≤ 2 ^ 56 :=
    ⟨by positivity, pow_le_pow_right₀ (by norm_num) (by omega)⟩
  have htop : ofExponent 15 = .ok (15 * 2 ^ 57) := ofExponent_of_le (e := 15) (by omega)
  have hbits := int64_of_abs_lt .subtract (v := 15 * 2 ^ 57 - v) (by rw [abs_lt]; omega)
  have hsum := int64_of_abs_lt .add (v := 15 * 2 ^ 57 - v + 2 ^ (56 - shift))
    (by rw [abs_lt]; omega)
  have hlog : log2 (max 1 (min p 32768) : ℕ) = .ok v := hv
  have hhalf : ((1 <<< (56 - shift) : ℕ) : ℤ) = 2 ^ (56 - shift) := by
    rw [Nat.one_shiftLeft]
    push_cast
    rfl
  simp only [cost, require_of hs, htop, hlog, hbits, hhalf, hsum, ok_bind, pure_eq_ok, shortfall]

theorem shortfall_lt (hs : shift ≤ 28) (hv : log2 (clamped p) = .ok v) :
    shortfall v shift < 4294967296 := by
  have hpow : (2 : ℤ) ^ shift ≤ 2 ^ 28 := pow_le_pow_right₀ (by norm_num) hs
  have hle := (shortfall_bounds (show shift < 57 by omega) hv).2
  omega

/-- Down to units of `2 ^ -28` bits a cost is not cut to a word. -/
theorem cost_eq_shortfall (hs : shift ≤ 28) (hv : log2 (clamped p) = .ok v) :
    cost p shift = .ok (shortfall v shift).toNat := by
  rw [cost_eq (by omega) hv,
    Int.emod_eq_of_lt (shortfall_bounds (by omega) hv).1 (shortfall_lt hs hv)]

theorem cost_antitone (hs : shift ≤ 28) (h : p ≤ p') : ∃ c c', cost p shift = .ok c ∧
    cost p' shift = .ok c' ∧ c' ≤ c ∧ c ≤ 15 * 2 ^ shift := by
  obtain ⟨v, hv, -⟩ := log2_clamped p
  obtain ⟨v', hv', -⟩ := log2_clamped p'
  have hle := (shortfall_bounds (show shift < 57 by omega) hv).2
  refine ⟨_, _, cost_eq_shortfall hs hv, cost_eq_shortfall hs hv', ?_, ?_⟩
  · exact Int.toNat_le_toNat (shortfall_antitone (log2_clamped_mono h hv hv') shift)
  · apply Int.toNat_le.mpr
    exact_mod_cast hle

/-- The largest cost of a symbol: a probability of zero costs as much as one of one. -/
abbrev maxCost : ℕ := 15 * 512

theorem cost_le (p : ℕ) : ∃ c ≤ maxCost, cost p 9 = .ok c := by
  obtain ⟨c, -, hc, -, -, hle⟩ := cost_antitone (show 9 ≤ 28 by norm_num) (le_refl p)
  exact ⟨c, hle, hc⟩

theorem cost_double (hs : shift < 57) (h : 1 ≤ p) (h' : p ≤ 16384) : ∃ c c',
    cost p shift = .ok c ∧ cost (2 * p) shift = .ok c' ∧ c ≡ c' + 2 ^ shift [MOD 2 ^ 32] := by
  obtain ⟨v, hv, -⟩ := log2_clamped p
  have hdouble := log2_clamped_double h h' hv
  refine ⟨_, _, cost_eq hs hv, cost_eq hs hdouble, ?_⟩
  have hbit : shortfall v shift = shortfall (v + 2 ^ 57) shift + 1 * 2 ^ shift := by
    rw [← shortfall_sub_whole hs]
    congr 1
    ring
  apply (Int.natCast_modEq_iff).mp
  rw [hbit, Int.toNat_of_nonneg (Int.emod_nonneg _ (by norm_num))]
  push_cast
  rw [Int.toNat_of_nonneg (Int.emod_nonneg _ (by norm_num)), one_mul]
  exact (Int.mod_modEq _ _).trans ((Int.mod_modEq _ _).symm.add_right _)

theorem cost_halving_and_order (hs : shift < 57) :
    (∀ p, ∃ c < 2 ^ 32, cost p shift = .ok c) ∧
    (∀ p, 1 ≤ p → p ≤ 16384 → ∃ c c', cost p shift = .ok c ∧ cost (2 * p) shift = .ok c' ∧
      c ≡ c' + 2 ^ shift [MOD 2 ^ 32]) ∧
    (shift ≤ 28 →
      (∀ p, ∃ v c, log2 (clamped p) = .ok v ∧ cost p shift = .ok c ∧ c = shortfall v shift) ∧
      ∀ p p', p ≤ p' → ∃ c c', cost p shift = .ok c ∧ cost p' shift = .ok c' ∧
        c' ≤ c ∧ c ≤ 15 * 2 ^ shift) := by
  refine ⟨?_, ?_, ?_⟩
  · intro p
    obtain ⟨v, hv, -⟩ := log2_clamped p
    refine ⟨_, ?_, cost_eq hs hv⟩
    omega
  · intro p h h'
    exact cost_double hs h h'
  · intro hs'
    constructor
    · intro p
      obtain ⟨v, hv, -⟩ := log2_clamped p
      refine ⟨v, _, hv, cost_eq_shortfall hs' hv, ?_⟩
      exact Int.toNat_of_nonneg (shortfall_bounds hs hv).1
    · intro p p' h
      exact cost_antitone hs' h

/-- At 56 fraction bits a cost of 15 bits no longer fits the word it is cut to. -/
theorem cost_halving_and_order_fine :
    (∃ c c', cost 1 56 = .ok c ∧ cost 2 56 = .ok c' ∧ c ≡ c' + 2 ^ 56 [MOD 2 ^ 32]) ∧
    ∃ c c', cost 3 28 = .ok c ∧ cost 4 28 = .ok c' ∧ c' ≤ c ∧ c ≤ 15 * 2 ^ 28 :=
  ⟨(cost_halving_and_order (show 56 < 57 by norm_num)).2.1 1 le_rfl (by norm_num),
    ((cost_halving_and_order (show 28 < 57 by norm_num)).2.2 le_rfl).2 3 4 (by norm_num)⟩

end MotionEntropy.Logarithm
