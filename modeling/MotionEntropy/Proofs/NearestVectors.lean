import MotionEntropy.Proofs.VectorRecovery

namespace MotionEntropy

structure IsNearest (step : ℕ) (v x : ℤ) : Prop where
  dvd : (step : ℤ) ∣ x
  closest : ∀ y : ℤ, (step : ℤ) ∣ y → (x - v).natAbs ≤ (y - v).natAbs
  inner : ∀ y : ℤ, (step : ℤ) ∣ y → (y - v).natAbs = (x - v).natAbs → y ≠ x →
    x.natAbs < y.natAbs

variable {p : Precision} {u v : ℤ}

theorem nearest_half (p : Precision) (v : ℤ) :
    2 * (nearest p.step v - v).natAbs ≤ p.step ∧
      (2 * (nearest p.step v - v).natAbs = p.step → (nearest p.step v).natAbs < v.natAbs) := by
  have hnat (k : ℕ) : 2 * (nearest p.step k - k).natAbs ≤ p.step ∧
      (2 * (nearest p.step k - k).natAbs = p.step → (nearest p.step k).natAbs < k) := by
    rw [nearest_natCast]
    cases p <;> simp only [Precision.step] <;> split_ifs <;> omega
  obtain ⟨k, rfl | rfl⟩ := v.eq_nat_or_neg
  · exact hnat k
  · rw [nearest_neg, ← neg_sub', Int.natAbs_neg, Int.natAbs_neg, Int.natAbs_neg]
    exact hnat k

theorem isNearest_nearest (p : Precision) (v : ℤ) : IsNearest p.step v (nearest p.step v) := by
  have hdvd : (p.step : ℤ) ∣ nearest p.step v := dvd_nearest
  obtain ⟨hhalf, htie⟩ := nearest_half p v
  generalize nearest p.step v = x at *
  refine ⟨hdvd, ?_, ?_⟩
  · intro y hy
    cases p <;> simp only [Precision.step] at * <;> omega
  · intro y hy he hne
    cases p <;> simp only [Precision.step] at * <;> omega

theorem nearest_mono (p : Precision) (h : u ≤ v) : nearest p.step u ≤ nearest p.step v := by
  have hdvd : (p.step : ℤ) ∣ nearest p.step u := dvd_nearest
  have hdvd' : (p.step : ℤ) ∣ nearest p.step v := dvd_nearest
  obtain ⟨hhalf, htie⟩ := nearest_half p u
  obtain ⟨hhalf', htie'⟩ := nearest_half p v
  generalize nearest p.step u = x at *
  generalize nearest p.step v = y at *
  cases p <;> simp only [Precision.step] at * <;> omega

theorem nearest_of_dvd (h : (p.step : ℤ) ∣ v) : nearest p.step v = v := by
  have hclosest := (isNearest_nearest p v).closest v h
  rw [sub_self, Int.natAbs_zero, Nat.le_zero, Int.natAbs_eq_zero] at hclosest
  exact sub_eq_zero.mp hclosest

theorem nearest_zero (p : Precision) : nearest p.step 0 = 0 := nearest_of_dvd (dvd_zero _)

theorem dvd_limit (p : Precision) : (p.step : ℤ) ∣ componentLimit := by cases p <;> decide

theorem nearest_inRange (p : Precision) (h : InRange v) : InRange (nearest p.step v) := by
  constructor
  · rw [← nearest_of_dvd (dvd_limit p).neg_right]
    exact nearest_mono p h.1
  · rw [← nearest_of_dvd (dvd_limit p)]
    exact nearest_mono p h.2

theorem nearest_nonneg (p : Precision) (h : 0 ≤ v) : 0 ≤ nearest p.step v :=
  (nearest_zero p).symm.trans_le (nearest_mono p h)

theorem nearest_nonpos (p : Precision) (h : v ≤ 0) : nearest p.step v ≤ 0 :=
  (nearest_mono p h).trans_eq (nearest_zero p)

namespace MotionVector

variable {v w r s : MotionVector}

def Opposite (v w : MotionVector) : Prop := ∀ a, v.along a = -w.along a

theorem isValid_iff : v.IsValid ↔ ∀ a, (v.along a).natAbs < 16384 := by
  rw [Axis.forall_iff, along_row, along_column, IsValid]
  simp only [componentLimit]
  omega

theorem inRange_of_isValid (h : v.IsValid) (a : Axis) : InRange (v.along a) := by
  have hlt := isValid_iff.mp h a
  constructor <;> simp only [componentLimit] <;> omega

theorem eq_of_along (h : ∀ a, v.along a = w.along a) : v = w := by
  obtain ⟨row, col⟩ := v
  obtain ⟨row', col'⟩ := w
  obtain rfl : row = row' := Int16.toInt_inj.mp (h .row)
  obtain rfl : col = col' := Int16.toInt_inj.mp (h .column)
  rfl

theorem Opposite.isValid (h : v.Opposite w) (hw : w.IsValid) : v.IsValid := by
  rw [isValid_iff] at hw ⊢
  intro a
  rw [h a, Int.natAbs_neg]
  exact hw a

theorem lower_of_not_valid (h : ¬v.IsValid) : v.lower p = .error (.broken .roundedValid) := by
  rw [lower, require_of_not h, error_bind]

theorem along_of_lower (h : v.lower p = .ok r) (a : Axis) :
    r.along a = nearest p.step (v.along a) := by
  by_cases hv : v.IsValid
  · obtain ⟨r', hr', ha⟩ := lower_eq (p := p) hv
    rw [hr'] at h
    cases h
    exact ha a
  · rw [lower_of_not_valid hv] at h
    cases h

theorem lower_opposite (hv : v.IsValid) (hr : v.lower p = .ok r) (hw : w.Opposite v) :
    ∃ s, w.lower p = .ok s ∧ s.Opposite r := by
  obtain ⟨s, hs, ha⟩ := lower_eq (p := p) (hw.isValid hv)
  refine ⟨s, hs, ?_⟩
  intro a
  rw [ha a, hw a, nearest_neg, along_of_lower hr a]

theorem lower_lower (hr : v.lower p = .ok r) (hvalid : r.IsValid) : r.lower p = .ok r := by
  obtain ⟨s, hs, ha⟩ := lower_eq (p := p) hvalid
  have hfixed : s = r := by
    apply eq_of_along
    intro a
    rw [ha a, along_of_lower hr a, nearest_of_dvd dvd_nearest]
  rw [hs, hfixed]

theorem lower_mono (hr : v.lower p = .ok r) (hs : w.lower p = .ok s) {a : Axis}
    (h : v.along a ≤ w.along a) : r.along a ≤ s.along a := by
  rw [along_of_lower hr a, along_of_lower hs a]
  exact nearest_mono p h

theorem isValid_lower_iff (hv : v.IsValid) (hr : v.lower p = .ok r) :
    r.IsValid ↔ ∀ a, (r.along a).natAbs ≠ 16384 := by
  rw [isValid_iff]
  apply forall_congr'
  intro a
  have hrange := nearest_inRange p (inRange_of_isValid hv a)
  rw [← along_of_lower hr a] at hrange
  obtain ⟨hlow, hhigh⟩ := hrange
  simp only [componentLimit] at hlow hhigh
  omega

end MotionVector

namespace Predictor

variable {predictor : Predictor} {frame : RefFrame} {f : Fault}

theorem nearestAndNear_of_key (h : RefPair.key ⟨frame, .absent⟩ = .error f) :
    predictor.nearestAndNear p frame = .error f := by
  rw [nearestAndNear, vectorAt, stack, h]
  rfl

theorem nearestAndNear_of_vectors {v u : MotionVector}
    (hv : predictor.vectorAt ⟨frame, .absent⟩ 0 0 = .ok v)
    (hu : predictor.vectorAt ⟨frame, .absent⟩ 0 1 = .ok u) :
    predictor.nearestAndNear p frame = do return (← v.lower p, ← u.lower p) := by
  rw [nearestAndNear, hv, ok_bind, hu, ok_bind]

theorem nearestAndNear_of_not_valid {rank : ℕ} {v : MotionVector} (hrank : rank < 2)
    (hv : predictor.vectorAt ⟨frame, .absent⟩ 0 rank = .ok v) (hinvalid : ¬v.IsValid) :
    predictor.nearestAndNear p frame = .error (.broken .roundedValid) := by
  obtain ⟨best, hbest⟩ := exists_vectorAt_single predictor frame 0
  obtain ⟨other, hother⟩ := exists_vectorAt_single predictor frame 1
  rw [nearestAndNear_of_vectors hbest hother]
  by_cases hbest' : best.IsValid
  · obtain ⟨r, hr, -⟩ := MotionVector.lower_eq (p := p) hbest'
    have hother' : ¬other.IsValid := by
      obtain rfl | rfl : rank = 0 ∨ rank = 1 := by omega
      · cases hv.symm.trans hbest
        exact absurd hbest' hinvalid
      · cases hv.symm.trans hother
        exact hinvalid
    rw [hr, ok_bind, MotionVector.lower_of_not_valid hother', error_bind]
  · rw [MotionVector.lower_of_not_valid hbest', error_bind]

theorem nearestAndNear_error_iff : predictor.nearestAndNear p frame = .error f ↔
    RefPair.key ⟨frame, .absent⟩ = .error f ∨
      f = .broken .roundedValid ∧ ∃ rank < 2, ∃ v,
        predictor.vectorAt ⟨frame, .absent⟩ 0 rank = .ok v ∧ ¬v.IsValid := by
  constructor
  · intro h
    right
    by_cases hvalid : ∀ rank < 2, ∀ v, predictor.vectorAt ⟨frame, .absent⟩ 0 rank = .ok v → v.IsValid
    · obtain ⟨best, other, hok, -, -⟩ := nearestAndNear_eq (p := p) hvalid
      rw [hok] at h
      cases h
    · push Not at hvalid
      obtain ⟨rank, hrank, v, hv, hinvalid⟩ := hvalid
      rw [nearestAndNear_of_not_valid hrank hv hinvalid] at h
      cases h
      exact ⟨rfl, rank, hrank, v, hv, hinvalid⟩
  · rintro (h | ⟨rfl, rank, hrank, v, hv, hinvalid⟩)
    · exact nearestAndNear_of_key h
    · exact nearestAndNear_of_not_valid hrank hv hinvalid

end Predictor

namespace MotionVector

/-- Rounding takes each component to the nearest multiple of the step, keeps order and sign, and
refuses just the vectors out of range; a pair of predictions fails where one of them is refused. -/
theorem lower_rounds_nearest (p : Precision) :
    (∀ v : MotionVector, v.IsValid → ∃ r, v.lower p = .ok r ∧
      (∀ a, IsNearest p.step (v.along a) (r.along a) ∧ InRange (r.along a) ∧
        (0 ≤ v.along a → 0 ≤ r.along a) ∧ (v.along a ≤ 0 → r.along a ≤ 0)) ∧
      (∀ w : MotionVector, w.Opposite v → ∃ s, w.lower p = .ok s ∧ s.Opposite r) ∧
      (r.IsValid → r.lower p = .ok r) ∧
      (r.IsValid ↔ ∀ a, (r.along a).natAbs ≠ 16384)) ∧
    (∀ v w r s : MotionVector, v.lower p = .ok r → w.lower p = .ok s →
      ∀ a, v.along a ≤ w.along a → r.along a ≤ s.along a) ∧
    (∀ v : MotionVector, ¬v.IsValid → v.lower p = .error (.broken .roundedValid)) ∧
    ∀ (predictor : Predictor) (frame : RefFrame) (f : Fault),
      predictor.nearestAndNear p frame = .error f ↔
        RefPair.key ⟨frame, .absent⟩ = .error f ∨
          f = .broken .roundedValid ∧ ∃ rank < 2, ∃ v,
            predictor.vectorAt ⟨frame, .absent⟩ 0 rank = .ok v ∧ ¬v.IsValid := by
  refine ⟨?_, ?_, ?_, ?_⟩
  · intro v hv
    obtain ⟨r, hr, ha⟩ := lower_eq (p := p) hv
    refine ⟨r, hr, ?_, ?_, lower_lower hr, isValid_lower_iff hv hr⟩
    · intro a
      rw [ha a]
      exact ⟨isNearest_nearest p _, nearest_inRange p (inRange_of_isValid hv a), nearest_nonneg p,
        nearest_nonpos p⟩
    · intro w hw
      exact lower_opposite hv hr hw
  · intro v w r s hr hs a h
    exact lower_mono hr hs h
  · intro v hv
    exact lower_of_not_valid hv
  · intro predictor frame f
    exact Predictor.nearestAndNear_error_iff

theorem lower_rounds_nearest_fullPel :
    (∃ r s, (⟨12, -16381⟩ : MotionVector).lower .fullPel = .ok r ∧
      IsNearest 8 12 (r.along .row) ∧ IsNearest 8 (-16381) (r.along .column) ∧ ¬r.IsValid ∧
      (⟨-12, 16381⟩ : MotionVector).lower .fullPel = .ok s ∧ s.Opposite r) ∧
    (⟨32767, 0⟩ : MotionVector).lower .fullPel = .error (.broken .roundedValid) ∧
    ∃ predictor : Predictor, predictor.vectorAt ⟨.last, .absent⟩ 0 1 = .ok ⟨32767, 0⟩ ∧
      predictor.nearestAndNear .fullPel .last = .error (.broken .roundedValid) := by
  let predictor : Predictor :=
    ⟨(Vector.replicate _ .empty).set 1 (CandidateStack.empty.setGlobal ⟨32767, 0⟩)⟩
  have hglobal : predictor.vectorAt ⟨.last, .absent⟩ 0 1 = .ok ⟨32767, 0⟩ := rfl
  have hlowered : (⟨12, -16381⟩ : MotionVector).lower .fullPel = .ok ⟨8, -16384⟩ := by
    decide +kernel
  obtain ⟨hvalid, -, hinvalid, hpredicted⟩ := lower_rounds_nearest .fullPel
  obtain ⟨r, hr, hnearest, hopposite, -, hedge⟩ := hvalid ⟨12, -16381⟩ (by decide)
  obtain ⟨s, hs, hs'⟩ := hopposite ⟨-12, 16381⟩ (Axis.forall_iff.mpr ⟨by decide, by decide⟩)
  cases hr.symm.trans hlowered
  refine ⟨⟨_, s, hr, (hnearest .row).1, (hnearest .column).1, hedge.not.mpr (by decide), hs, hs'⟩,
    hinvalid _ (by decide), predictor, hglobal, ?_⟩
  exact (hpredicted predictor .last _).mpr (.inr ⟨rfl, 1, by decide, _, hglobal, by decide⟩)

end MotionVector

end MotionEntropy
