import MotionEntropy.Joint
import MotionEntropy.Proofs.ComponentWalk

namespace MotionEntropy

/-- Whether no bit below the step of `p` is coded. -/
def Aligned (p : Precision) (layout : Layout) : Prop := ¬(p = .halfPel ∧ layout = .joint)

namespace Precision

variable {p : Precision}

theorem step_pos (p : Precision) : 0 < p.step := by cases p <;> decide

theorem eq_fullPel_iff : p = .fullPel ↔ ¬p.step < 8 := by cases p <;> decide

theorem quarterPel_le_iff : .quarterPel ≤ p ↔ p.step < 4 := by cases p <;> decide

theorem eq_eighthPel_iff : p = .eighthPel ↔ p.step < 2 := by cases p <;> decide

end Precision

theorem Aligned.step_lt {p : Precision} (h : Aligned p .joint) (hp : p ≠ .fullPel) : p.step < 4 := by
  cases p with
  | fullPel => exact absurd rfl hp
  | halfPel => exact absurd ⟨rfl, rfl⟩ h
  | quarterPel => decide
  | eighthPel => decide

theorem eight_dvd_classBase {c : ℕ} (h : c < classCount) : 8 ∣ classBase c := by
  by_cases h0 : c = 0
  · rw [h0]
    exact Nat.dvd_zero 8
  · rw [classBase_eq h0 h, Nat.shiftLeft_eq]
    exact Nat.dvd_mul_right 8 _

theorem magnitudeClass_congr {z z' : ℕ} (h : z / 8 = z' / 8) :
    magnitudeClass z = magnitudeClass z' := by
  by_cases hz : 8192 ≤ z
  · rw [magnitudeClass_of_le hz, magnitudeClass_of_le (by omega)]
  · rw [magnitudeClass_of_lt (by omega), magnitudeClass_of_lt (by omega), h]

namespace Magnitude

variable {m m' : Magnitude} {p : Precision} {layout : Layout} {z z' : ℕ} {u v : List ℕ}

theorem ofNat_whole (z : ℕ) : classBase (ofNat z).cls + 8 * (ofNat z).whole = 8 * (z / 8) := by
  have hdvd := eight_dvd_classBase (magnitudeClass_lt z)
  have hle := classBase_magnitudeClass_le z
  show classBase (magnitudeClass z) + 8 * ((z - classBase (magnitudeClass z)) / 8) = _
  omega

theorem ofNat_fraction (z : ℕ) : (ofNat z).fraction = z / 2 % 4 := by
  have hdvd := eight_dvd_classBase (magnitudeClass_lt z)
  have hle := classBase_magnitudeClass_le z
  show (z - classBase (magnitudeClass z)) / 2 % 4 = _
  omega

theorem ofNat_eighth (z : ℕ) : (ofNat z).eighth = z % 2 := by
  have hdvd := eight_dvd_classBase (magnitudeClass_lt z)
  have hle := classBase_magnitudeClass_le z
  show (z - classBase (magnitudeClass z)) % 2 = _
  omega

structure Agree (p : Precision) (m m' : Magnitude) : Prop where
  cls : m.cls = m'.cls
  whole : m.whole = m'.whole
  high : p.step < 8 → m.fraction / 2 = m'.fraction / 2
  low : p.step < 4 → m.fraction % 2 = m'.fraction % 2
  eighth : p.step < 2 → m.eighth = m'.eighth

theorem agree_iff : Agree p (ofNat z) (ofNat z') ↔ z / p.step = z' / p.step := by
  have hw := ofNat_whole z
  have hw' := ofNat_whole z'
  constructor
  · rintro ⟨hcls, hwhole, hhigh, hlow, heighth⟩
    rw [ofNat_fraction, ofNat_fraction] at hhigh hlow
    rw [ofNat_eighth, ofNat_eighth] at heighth
    rw [hcls, hwhole] at hw
    cases p <;> simp only [Precision.step] at * <;> omega
  · intro h
    have h8 : z / 8 = z' / 8 := by cases p <;> simp only [Precision.step] at h <;> omega
    have hcls : (ofNat z).cls = (ofNat z').cls := magnitudeClass_congr h8
    rw [hcls, h8] at hw
    refine ⟨hcls, by omega, ?_, ?_, ?_⟩
    · rw [ofNat_fraction, ofNat_fraction]
      cases p <;> simp only [Precision.step] at * <;> omega
    · rw [ofNat_fraction, ofNat_fraction]
      cases p <;> simp only [Precision.step] at * <;> omega
    · rw [ofNat_eighth, ofNat_eighth]
      cases p <;> simp only [Precision.step] at * <;> omega

theorem whole_of_wholeSymbols (hm : m.Proper) (hm' : m'.Proper) (hcls : m.cls = m'.cls)
    (h : m.wholeSymbols.map Prod.snd = m'.wholeSymbols.map Prod.snd) : m.whole = m'.whole := by
  have hlt := hm.whole_lt
  have hlt' := hm'.whole_lt
  rw [wholeSymbols, wholeSymbols, ← hcls] at h
  rw [← hcls] at hlt'
  split_ifs at h hlt hlt'
  · simpa using h
  · rw [List.map_map, List.map_map, List.map_inj_left] at h
    apply Nat.eq_of_testBit_eq
    intro i
    by_cases hi : i < m.cls
    · have hbit : m.whole >>> i % 2 = m'.whole >>> i % 2 := h i (List.mem_range.mpr hi)
      rw [Nat.shiftRight_eq_div_pow, Nat.shiftRight_eq_div_pow] at hbit
      rw [Nat.testBit_eq_decide_div_mod_eq, Nat.testBit_eq_decide_div_mod_eq, hbit]
    · have hle : 2 ^ m.cls ≤ 2 ^ i := Nat.pow_le_pow_right (by decide) (by omega)
      rw [Nat.testBit_lt_two_pow (hlt.trans_le hle), Nat.testBit_lt_two_pow (hlt'.trans_le hle)]

theorem fractionSymbols_fullPel (hp : p = .fullPel) : m.fractionSymbols p layout = [] := if_pos hp

theorem fractionSymbols_joint (hp : p ≠ .fullPel) :
    m.fractionSymbols p .joint = [(m.fractionTable 0, m.fraction)] := if_neg hp

theorem fractionSymbols_split (hp : p ≠ .fullPel) : m.fractionSymbols p .split =
    (m.fractionTable 0, m.fraction / 2) ::
      if .quarterPel ≤ p then [(m.fractionTable (1 + m.fraction / 2), m.fraction % 2)] else [] :=
  if_neg hp

theorem fraction_of_fractionSymbols
    (h : (m.fractionSymbols p layout).map Prod.snd = (m'.fractionSymbols p layout).map Prod.snd) :
    (p.step < 8 → m.fraction / 2 = m'.fraction / 2) ∧
      (p.step < 4 → m.fraction % 2 = m'.fraction % 2) := by
  by_cases hp : p = .fullPel
  · rw [hp]
    constructor <;> intro hstep <;> exact absurd hstep (by decide)
  · cases layout with
    | joint =>
      rw [fractionSymbols_joint hp, fractionSymbols_joint hp] at h
      have hfraction : m.fraction = m'.fraction := (List.cons.inj h).1
      constructor <;> intro _ <;> rw [hfraction]
    | split =>
      rw [fractionSymbols_split hp, fractionSymbols_split hp] at h
      obtain ⟨hhigh, hrest⟩ := List.cons.inj h
      constructor
      · intro _
        exact hhigh
      · intro hstep
        have hquarter := Precision.quarterPel_le_iff.mpr hstep
        rw [if_pos hquarter, if_pos hquarter] at hrest
        exact (List.cons.inj hrest).1

theorem eighth_of_eighthSymbols
    (h : (m.eighthSymbols p).map Prod.snd = (m'.eighthSymbols p).map Prod.snd) :
    p.step < 2 → m.eighth = m'.eighth := by
  intro hstep
  have hp := Precision.eq_eighthPel_iff.mpr hstep
  rw [eighthSymbols, if_pos hp, eighthSymbols, if_pos hp] at h
  exact (List.cons.inj h).1

theorem agree_of_symbols (hm : m.Proper) (hm' : m'.Proper)
    (h : (m.symbols p layout).map Prod.snd ++ u = (m'.symbols p layout).map Prod.snd ++ v) :
    Agree p m m' ∧ u = v := by
  simp only [symbols, List.map_cons, List.map_append, List.cons_append, List.append_assoc] at h
  obtain ⟨hcls, h⟩ := List.cons.inj h
  -- Equal classes give parts of equal lengths, so both streams are cut in the same places.
  have hlength : (m.wholeSymbols.map Prod.snd).length = (m'.wholeSymbols.map Prod.snd).length := by
    rw [List.length_map, List.length_map, length_wholeSymbols, length_wholeSymbols, hcls]
  obtain ⟨hwhole, h⟩ := List.append_inj h hlength
  obtain ⟨hfraction, h⟩ := List.append_inj h
    (by rw [List.length_map, List.length_map, length_fractionSymbols, length_fractionSymbols])
  obtain ⟨heighth, h⟩ := List.append_inj h
    (by rw [List.length_map, List.length_map, length_eighthSymbols, length_eighthSymbols])
  obtain ⟨hhigh, hlow⟩ := fraction_of_fractionSymbols hfraction
  exact ⟨⟨hcls, whole_of_wholeSymbols hm hm' hcls hwhole, hhigh, hlow,
    eighth_of_eighthSymbols heighth⟩, h⟩

theorem Agree.fractionTable_eq (h : Agree p m m') (slot : ℕ) :
    m.fractionTable slot = m'.fractionTable slot := by
  rw [fractionTable, fractionTable, h.cls, h.whole]

theorem Agree.fractionSymbols_eq (hpl : Aligned p layout) (h : Agree p m m') :
    m.fractionSymbols p layout = m'.fractionSymbols p layout := by
  by_cases hp : p = .fullPel
  · rw [fractionSymbols_fullPel hp, fractionSymbols_fullPel hp]
  · have hhigh := h.high (not_not.mp fun hstep => hp (Precision.eq_fullPel_iff.mpr hstep))
    cases layout with
    | joint =>
      have hlow := h.low (hpl.step_lt hp)
      have hfraction : m.fraction = m'.fraction := by omega
      rw [fractionSymbols_joint hp, fractionSymbols_joint hp, h.fractionTable_eq, hfraction]
    | split =>
      rw [fractionSymbols_split hp, fractionSymbols_split hp, hhigh, h.fractionTable_eq,
        h.fractionTable_eq]
      by_cases hquarter : .quarterPel ≤ p
      · rw [h.low (Precision.quarterPel_le_iff.mp hquarter)]
      · rw [if_neg hquarter, if_neg hquarter]

theorem Agree.symbols_eq (hpl : Aligned p layout) (h : Agree p m m') :
    m.symbols p layout = m'.symbols p layout := by
  have hwhole : m.wholeSymbols = m'.wholeSymbols := by
    rw [wholeSymbols, wholeSymbols, h.cls, h.whole]
  have heighth : m.eighthSymbols p = m'.eighthSymbols p := by
    by_cases hp : p = .eighthPel
    · rw [eighthSymbols, eighthSymbols, h.cls, h.eighth (Precision.eq_eighthPel_iff.mp hp)]
    · rw [eighthSymbols, if_neg hp, eighthSymbols, if_neg hp]
  rw [symbols, symbols, h.cls, hwhole, h.fractionSymbols_eq hpl, heighth]

end Magnitude

def coarse (p : Precision) (comp : ℤ) : ℤ :=
  comp.sign * (p.step * ((comp.natAbs + p.step - 1) / p.step) : ℕ)

section

variable {p : Precision} {layout : Layout} {x y : ℤ} {u v : List ℕ}

def componentValues (p : Precision) (layout : Layout) (comp : ℤ) : List ℕ :=
  (componentCode p layout comp).map Prod.snd

theorem coarse_of_ne (hx : x ≠ 0) : coarse p x =
    if x < 0 then -((p.step * ((x.natAbs - 1) / p.step + 1) : ℕ) : ℤ)
    else (p.step * ((x.natAbs - 1) / p.step + 1) : ℕ) := by
  have hceil : (x.natAbs + p.step - 1) / p.step = (x.natAbs - 1) / p.step + 1 := by
    rw [show x.natAbs + p.step - 1 = x.natAbs - 1 + p.step by omega,
      Nat.add_div_right _ p.step_pos]
  rw [coarse, hceil]
  split
  · next h => rw [Int.sign_eq_neg_one_of_neg h, Int.neg_one_mul]
  · rw [Int.sign_eq_one_of_pos (by omega), Int.one_mul]

theorem coarse_zero : coarse p 0 = 0 := by
  rw [coarse, Int.sign_zero, Int.zero_mul]

theorem coarse_eq_zero_iff : coarse p x = 0 ↔ x = 0 := by
  constructor
  · intro h
    by_contra hx
    have hpos : 0 < p.step * ((x.natAbs - 1) / p.step + 1) := Nat.mul_pos p.step_pos (Nat.succ_pos _)
    rw [coarse_of_ne hx] at h
    split at h <;> omega
  · rintro rfl
    exact coarse_zero

theorem coarse_of_dvd (h : (p.step : ℤ) ∣ x) : coarse p x = x := by
  by_cases hx : x = 0
  · rw [hx, coarse_zero]
  · rw [coarse_of_ne hx]
    cases p <;> simp only [Precision.step] at h ⊢ <;> split <;> omega

theorem coarse_eq_iff (hx : x ≠ 0) (hy : y ≠ 0) : coarse p x = coarse p y ↔
    signSymbol x = signSymbol y ∧ (x.natAbs - 1) / p.step = (y.natAbs - 1) / p.step := by
  have hpos (n : ℕ) : 0 < p.step * (n + 1) := Nat.mul_pos p.step_pos n.succ_pos
  have hx' := hpos ((x.natAbs - 1) / p.step)
  have hy' := hpos ((y.natAbs - 1) / p.step)
  have hcancel {n k : ℕ} : p.step * (n + 1) = p.step * (k + 1) ↔ n = k := by
    rw [Nat.mul_right_inj p.step_pos.ne', Nat.add_right_cancel_iff]
  rw [coarse_of_ne hx, coarse_of_ne hy, signSymbol, signSymbol, ← hcancel]
  generalize p.step * ((x.natAbs - 1) / p.step + 1) = a at *
  generalize p.step * ((y.natAbs - 1) / p.step + 1) = b at *
  split <;> split <;> simp <;> omega

theorem coarse_of_values (hx : InRange x) (hy : InRange y) (h0 : x = 0 ↔ y = 0)
    (h : componentValues p layout x ++ u = componentValues p layout y ++ v) :
    coarse p x = coarse p y ∧ u = v := by
  by_cases hx0 : x = 0
  · rw [hx0, h0.mp hx0] at h ⊢
    exact ⟨rfl, h⟩
  · have hy0 : y ≠ 0 := by
      intro hy0
      apply hx0
      exact h0.mpr hy0
    rw [componentValues, componentValues, componentCode_of_ne hx0, componentCode_of_ne hy0] at h
    obtain ⟨hsign, h⟩ := List.cons.inj h
    obtain ⟨hagree, huv⟩ :=
      Magnitude.agree_of_symbols (proper_of_inRange hx) (proper_of_inRange hy) h
    exact ⟨(coarse_eq_iff hx0 hy0).mpr ⟨congrArg (Prod.mk Symbol.sign) hsign,
      Magnitude.agree_iff.mp hagree⟩, huv⟩

theorem componentCode_congr (hpl : Aligned p layout) (h : coarse p x = coarse p y) :
    componentCode p layout x = componentCode p layout y := by
  by_cases hx0 : x = 0
  · have hy0 : y = 0 := by rwa [hx0, coarse_eq_zero_iff.mpr rfl, eq_comm, coarse_eq_zero_iff] at h
    rw [hx0, hy0]
  · have hy0 : y ≠ 0 := by rwa [ne_eq, ← coarse_eq_zero_iff (p := p), ← h, coarse_eq_zero_iff]
    obtain ⟨hsign, hstep⟩ := (coarse_eq_iff hx0 hy0).mp h
    rw [componentCode_of_ne hx0, componentCode_of_ne hy0, hsign,
      (Magnitude.agree_iff.mpr hstep).symbols_eq hpl]

end

end MotionEntropy
