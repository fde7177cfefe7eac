import Mathlib.Data.Int.Bitwise
import MotionEntropy.Proofs.LogarithmScaling

namespace MotionEntropy.Logarithm

def Holds (v : ℤ) : Prop := -2 ^ 63 ≤ v ∧ v < 2 ^ 63

instance (v : ℤ) : Decidable (Holds v) := inferInstanceAs (Decidable (_ ∧ _))

namespace Word

/-- Nothing is computed in words where a sum does not fit its word, where a shift is by a whole word
or more, or where an angle is not in the table. -/
def fit (v : ℤ) : Option ℤ := if Holds v then some v else none

def shiftLeft (v : ℤ) (k : ℕ) : Option ℤ :=
  if k < 64 then some ((v <<< k).bmod (2 ^ 64)) else none

def shiftRight (v : ℤ) (k : ℕ) : Option ℤ := if k < 64 then some (v >>> k) else none

def turnSign (y v : ℤ) : Option ℤ := do
  let mask : ℤ := if y < 0 then -1 else 0
  let sum ← fit (v + mask)
  return Int.xor sum mask

def turn (r : Rotation) (i : ℕ) : Option Rotation := do
  let full ← angles[min i 31]?
  let a ← turnSign r.y (← shiftRight full i)
  let angle ← fit (r.angle + a)
  let dx ← turnSign r.y (← shiftRight r.y (i + 1))
  let dy ← turnSign r.y (← shiftRight r.x (i + 1))
  let x ← fit (r.x - dx)
  let y ← fit (r.y - dy)
  return ⟨x, y, angle⟩

/-- A word is a power of two if it shares no bit with the word before it. -/
def ofMantissa (w : ℤ) : Option ℤ := do
  let below ← fit (w - 1)
  if Int.land w below = 0 then
    return 0
  else
    let x ← fit (w + one)
    let y ← fit (w - one)
    let r ← schedule.foldlM turn ⟨x, y, 0⟩
    let rounded ← fit (r.angle + 8)
    shiftRight rounded 4

def normalize (w : ℤ) (e : ℕ) : Option ℤ :=
  if 61 < e then shiftRight w (e - 61) else shiftLeft w (61 - e)

def ofExponent (e : ℕ) : Option ℤ := if e ≤ 63 then shiftLeft e 57 else none

def log2 (w : ℤ) : Option ℤ :=
  if w ≤ 0 then
    some (-1)
  else do
    let exponent := bitLength w - 1
    let part ← ofMantissa (← normalize w exponent)
    let whole ← ofExponent exponent
    fit (whole + part)

variable {v v' y w : ℤ} {i k : ℕ} {r r' : Rotation}

theorem fit_of_holds (h : Holds v) : fit v = some v := if_pos h

theorem shiftRight_of_lt (h : k < 64) : shiftRight v k = some (v >>> k) := if_pos h

theorem shiftLeft_of_holds (h : k < 64) (hv : Holds (v * 2 ^ k)) :
    shiftLeft v k = some (v * 2 ^ k) := by
  rw [shiftLeft, if_pos h, Int.shiftLeft_eq]
  have hbmod : (v * 2 ^ k).bmod (2 ^ 64) = v * 2 ^ k := by
    obtain ⟨hl, hu⟩ := hv
    apply Int.bmod_eq_of_le <;> push_cast <;> omega
  rw [hbmod]

theorem int64_inversion {op : Operation} (h : Checked.int64 op v = .ok v') :
    v' = v ∧ Holds v := by
  rw [Checked.int64] at h
  split_ifs at h with hv
  cases h
  exact ⟨rfl, by omega, by omega⟩

theorem xor_zero (v : ℤ) : Int.xor v 0 = v := by
  cases v <;> simp [Int.xor]

theorem xor_neg_one (v : ℤ) : Int.xor v (-1) = -v - 1 := by
  rw [show (-1 : ℤ) = Int.negSucc 0 from rfl]
  cases v with
  | ofNat n =>
    simp only [Int.xor, Nat.xor_zero, Int.negSucc_eq, Int.ofNat_eq_natCast]
    omega
  | negSucc n =>
    simp only [Int.xor, Nat.xor_zero, Int.negSucc_eq]
    omega

theorem turnSign_eq (h : |v| < 2 ^ 63) : turnSign y v = some (if y < 0 then -v else v) := by
  rw [abs_lt] at h
  by_cases hy : y < 0
  · have hfit : fit (v + -1) = some (v + -1) := fit_of_holds ⟨by omega, by omega⟩
    have hneg : -(v + -1) - 1 = -v := by ring
    simp only [turnSign, if_pos hy, hfit, Option.bind_eq_bind, Option.bind_some, xor_neg_one, hneg]
    rfl
  · have hfit : fit v = some v := fit_of_holds ⟨by omega, by omega⟩
    simp only [turnSign, if_neg hy, add_zero, hfit, Option.bind_eq_bind, Option.bind_some, xor_zero]
    rfl

theorem abs_shiftRight_lt (h : Holds v) (k : ℕ) : |v >>> (k + 1)| < 2 ^ 63 := by
  obtain ⟨hl, hu⟩ := h
  have hpos : (0 : ℤ) < 2 ^ k := by positivity
  have htwo : (2 : ℤ) ≤ 2 ^ (k + 1) := by
    rw [pow_succ]
    omega
  rw [Int.shiftRight_eq_div_pow, abs_lt]
  push_cast
  constructor
  · apply lt_of_lt_of_le (b := -2 ^ 62) (by norm_num)
    apply (Int.le_ediv_iff_mul_le (by omega)).mpr
    nlinarith
  · apply (Int.ediv_lt_iff_lt_mul (by omega)).mpr
    nlinarith

theorem schedule_in_range :
    ∀ i ∈ schedule, i < 62 ∧ |angles.getD (min i 31) 0 >>> i| < 2 ^ 63 := by decide +kernel

theorem turn_eq_some (hi : i ∈ schedule) (hx : Holds r.x) (hy : Holds r.y)
    (h : r.turn (i + 1, angles.getD (min i 31) 0 >>> i) = .ok r') :
    turn r i = some r' ∧ Holds r'.x ∧ Holds r'.y := by
  obtain ⟨hi, ha⟩ := schedule_in_range i hi
  have hget : angles[min i 31]? = some (angles.getD (min i 31) 0) := by
    have hlt : min i 31 < angles.length := lt_of_le_of_lt (min_le_right _ _) (by decide)
    rw [List.getElem?_eq_getElem hlt, List.getD_eq_getElem _ _ hlt]
  simp only [Rotation.turn] at h
  obtain ⟨angle, hangle, h⟩ := bind_eq_ok.mp h
  obtain ⟨x, hdx, h⟩ := bind_eq_ok.mp h
  obtain ⟨y, hdy, h⟩ := bind_eq_ok.mp h
  cases h
  obtain ⟨rfl, ha'⟩ := int64_inversion hangle
  obtain ⟨rfl, hx'⟩ := int64_inversion hdx
  obtain ⟨rfl, hy'⟩ := int64_inversion hdy
  refine ⟨?_, hx', hy'⟩
  rw [turn, hget]
  simp only [Option.bind_eq_bind, Option.bind_some, shiftRight_of_lt (show i < 64 by omega),
    shiftRight_of_lt (show i + 1 < 64 by omega), turnSign_eq ha,
    turnSign_eq (abs_shiftRight_lt hx i), turnSign_eq (abs_shiftRight_lt hy i),
    fit_of_holds ha', fit_of_holds hx', fit_of_holds hy']
  rfl

theorem foldlM_turn_eq_some {l : List ℕ} (hl : ∀ i ∈ l, i ∈ schedule) (hx : Holds r.x)
    (hy : Holds r.y)
    (h : l.foldlM (fun r i => r.turn (i + 1, angles.getD (min i 31) 0 >>> i)) r = .ok r') :
    l.foldlM turn r = some r' := by
  -- The run hands on no more than that both coordinates are words.
  induction l generalizing r with
  | nil =>
    cases h
    rfl
  | cons i l ih =>
    rw [List.foldlM_cons] at h
    obtain ⟨s, hs, h⟩ := bind_eq_ok.mp h
    obtain ⟨hturn, hx, hy⟩ := turn_eq_some (hl i (.head _)) hx hy hs
    rw [List.foldlM_cons, hturn]
    exact ih (fun j hj => hl j (.tail _ hj)) hx hy h

theorem land_sub_one_eq_zero {m : ℤ} (h : one ≤ m) (h' : m < 2 * one) :
    Int.land m (m - 1) = 0 ↔ m = one := by
  have hone : one = (2 ^ 61 : ℕ) := by norm_num [one]
  rw [hone] at h h' ⊢
  lift m to ℕ using by omega
  have hland : Int.land m (m - 1 : ℤ) = (m &&& (m - 1) : ℕ) := by
    rw [← Nat.cast_pred (by omega)]
    rfl
  rw [hland, Int.natCast_eq_zero, Nat.and_sub_one_eq_zero_iff_isPowerOfTwo (by omega)]
  norm_cast at h h' ⊢
  constructor
  · rintro ⟨k, rfl⟩
    have hl := (Nat.pow_le_pow_iff_right (by norm_num)).mp h
    rw [← pow_succ'] at h'
    have hu := (Nat.pow_lt_pow_iff_right (by norm_num)).mp h'
    rw [Nat.eq_of_le_of_lt_succ hl hu]
  · intro hm
    exact ⟨61, hm⟩

theorem ofMantissa_eq_some {m z : ℤ} (h : one ≤ m) (h' : m < 2 * one)
    (hz : Logarithm.ofMantissa m = .ok z) : ofMantissa m = some z := by
  have hpow := land_sub_one_eq_zero h h'
  simp only [one] at h h'
  have hbelow : fit (m - 1) = some (m - 1) := fit_of_holds ⟨by omega, by omega⟩
  rw [ofMantissa, hbelow, Option.bind_eq_bind, Option.bind_some]
  rw [Logarithm.ofMantissa] at hz
  by_cases hm : m = one
  · rw [if_pos hm] at hz
    cases hz
    exact if_pos (hpow.mpr hm)
  · rw [if_neg hm] at hz
    obtain ⟨x, hsum, hz⟩ := bind_eq_ok.mp hz
    obtain ⟨y, hdiff, hz⟩ := bind_eq_ok.mp hz
    obtain ⟨r, hr, hz⟩ := bind_eq_ok.mp hz
    obtain ⟨a, hrounded, hz⟩ := bind_eq_ok.mp hz
    cases hz
    obtain ⟨rfl, hx⟩ := int64_inversion hsum
    obtain ⟨rfl, hy⟩ := int64_inversion hdiff
    obtain ⟨rfl, ha⟩ := int64_inversion hrounded
    rw [turns, List.foldlM_map] at hr
    have hrun := foldlM_turn_eq_some (fun _ hi => hi) hx hy hr
    rw [if_neg (mt hpow.mp hm), fit_of_holds hx, fit_of_holds hy]
    simp only [Option.bind_eq_bind, Option.bind_some, hrun, fit_of_holds ha]
    rfl

theorem normalize_eq_some (h0 : 0 < w) (he : exponent w ≤ 62) :
    normalize w (exponent w) = some (mantissa w) := by
  by_cases h : 61 < exponent w
  · rw [normalize, if_pos h, shiftRight_of_lt (by omega), mantissa, if_pos h]
  · obtain ⟨hl, hu⟩ := mantissa_bounds h0
    rw [mantissa_of_le (by omega), one] at hl hu
    rw [normalize, if_neg h, mantissa_of_le (by omega)]
    exact shiftLeft_of_holds (by omega) ⟨by omega, by omega⟩

theorem ofExponent_eq_some {e : ℕ} (h : e ≤ 62) : ofExponent e = some ((e : ℤ) * 2 ^ 57) := by
  rw [ofExponent, if_pos (by omega)]
  exact shiftLeft_of_holds (by norm_num) ⟨by omega, by omega⟩

theorem log2_eq_some (h0 : 0 < w) (h : w < 2 ^ 63) :
    ∃ v, log2 w = some v ∧ Logarithm.log2 w = .ok v := by
  obtain ⟨z, hz, hle, -⟩ := exists_fraction h0
  obtain ⟨hm, hm'⟩ := mantissa_bounds h0
  have he : exponent w ≤ 62 := exponent_le h0 h
  refine ⟨_, ?_, log2_eq h0 he hz hle⟩
  rw [abs_le] at hle
  have hfit : fit (exponent w * 2 ^ 57 + z) = some (exponent w * 2 ^ 57 + z) :=
    fit_of_holds ⟨by omega, by omega⟩
  simp only [log2, if_neg (not_le.mpr h0), bitLength_sub_one h0, normalize_eq_some h0 he,
    Option.bind_eq_bind, Option.bind_some, ofMantissa_eq_some hm hm' hz, ofExponent_eq_some he, hfit]

end Word

theorem log2_total_and_scales :
    (∀ w, Holds w → ∃ v, Word.log2 w = some v ∧ log2 w = .ok v ∧ (w ≤ 0 → v = -1)) ∧
      (∀ (w : ℤ) (k : ℕ), 0 < w → w * 2 ^ k < 2 ^ 63 →
        ∃ v, log2 w = .ok v ∧ log2 (w * 2 ^ k) = .ok (v + k * 2 ^ 57)) ∧
      ∀ k : ℕ, (2 : ℤ) ^ k < 2 ^ 63 → log2 (2 ^ k) = .ok (k * 2 ^ 57) := by
  refine ⟨fun w hw => ?_, fun w k h0 h => log2_mul_pow h0 h, fun k h => log2_pow ?_⟩
  · by_cases h : w ≤ 0
    · exact ⟨-1, if_pos h, if_pos h, fun _ => rfl⟩
    · obtain ⟨v, hv, hlog⟩ := Word.log2_eq_some (not_le.mp h) hw.2
      exact ⟨v, hv, hlog, fun hw => absurd hw h⟩
  · exact Nat.le_of_lt_succ ((pow_lt_pow_iff_right₀ (by norm_num)).mp h)

theorem log2_total_and_scales_vector :
    (∃ v, Word.log2 (2 ^ 63 - 1) = some v ∧ log2 (2 ^ 63 - 1) = .ok v) ∧
      Word.log2 (-2 ^ 63) = some (-1) ∧
      log2 1793 = .ok 0x159DC71E24D32DAF ∧
      log2 (1793 * 2 ^ 52) = .ok (0x159DC71E24D32DAF + 52 * 2 ^ 57) ∧
      log2 (2 ^ 62) = .ok (62 * 2 ^ 57) := by
  obtain ⟨htotal, hscale, hpow⟩ := log2_total_and_scales
  have hlog : log2 1793 = .ok 0x159DC71E24D32DAF := by decide +kernel
  obtain ⟨v, hv, hlog', -⟩ := htotal (2 ^ 63 - 1) (by decide)
  obtain ⟨u, hu, -, hneg⟩ := htotal (-2 ^ 63) (by decide)
  obtain ⟨t, ht, hscaled⟩ := hscale 1793 52 (by norm_num) (by norm_num)
  rw [hlog] at ht
  cases ht
  cases hneg (by norm_num)
  exact ⟨⟨v, hv, hlog'⟩, hu, hlog, hscaled, hpow 62 (by norm_num)⟩

end MotionEntropy.Logarithm
