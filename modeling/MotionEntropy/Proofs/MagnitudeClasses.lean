import MotionEntropy.Proofs.CodeInjectivity

namespace MotionEntropy

/-- The magnitudes of class `c` start at its base and end before the base of the next class; the
last class has no end. -/
structure InClass (c z : ℕ) : Prop where
  cls_lt : c < classCount
  base_le : classBase c ≤ z
  lt_next : c + 1 < classCount → z < classBase (c + 1)

variable {c c' z z' : ℕ}

theorem wordClassBase_eq (h : c < classCount) : wordClassBase c = .ok (classBase c) := by
  have hc : c < 11 := h
  by_cases h0 : c = 0
  · rw [h0]
    rfl
  · have hshift : Checked.word64 .add (c + 2) = .ok (c + 2) := if_pos (by omega)
    rw [wordClassBase, if_neg h0, hshift, ok_bind, if_pos (by omega)]
    rfl

theorem wordClassBits_eq (h : c < classCount) : wordClassBits c = .ok (classBits c) := by
  have hc : c + 1 < 12 := Nat.succ_lt_succ h
  have hbits : Checked.word64 .add (c + 1) = .ok (c + 1) := if_pos (by omega)
  rw [wordClassBits, hbits]
  rfl

theorem classBase_mono (h : c ≤ c') (h' : c' < classCount) : classBase c ≤ classBase c' := by
  by_cases h0 : c = 0
  · rw [h0]
    exact Nat.zero_le _
  · rw [classBase_eq h0 (h.trans_lt h'), classBase_eq (by omega) h', Nat.shiftLeft_eq,
      Nat.shiftLeft_eq]
    apply Nat.mul_le_mul_left
    exact Nat.pow_le_pow_right (by decide) h

theorem lt_classBase_succ (h : magnitudeClass z + 1 < classCount) :
    z < classBase (magnitudeClass z + 1) := by
  by_cases hz : 8192 ≤ z
  · rw [magnitudeClass_of_le hz] at h
    exact absurd h (by decide)
  · rw [magnitudeClass_of_lt (by omega)] at h ⊢
    rw [classBase_eq (Nat.succ_ne_zero _) h, Nat.shiftLeft_eq]
    have hlt := Nat.lt_log2_self (n := z / 8)
    omega

theorem inClass_magnitudeClass (z : ℕ) : InClass (magnitudeClass z) z :=
  ⟨magnitudeClass_lt z, classBase_magnitudeClass_le z, lt_classBase_succ⟩

namespace InClass

theorem le (h : InClass c z) (h' : InClass c' z') (hz : z ≤ z') : c ≤ c' := by
  by_contra! hlt
  have hend := h'.lt_next (Nat.lt_of_le_of_lt hlt h.cls_lt)
  have hbase : classBase (c' + 1) ≤ classBase c := classBase_mono hlt h.cls_lt
  have hstart := h.base_le
  omega

theorem eq (h : InClass c z) (h' : InClass c' z) : c = c' :=
  le_antisymm (h.le h' le_rfl) (h'.le h le_rfl)

end InClass

theorem inClass_iff : InClass c z ↔ c = magnitudeClass z := by
  constructor
  · intro h
    exact h.eq (inClass_magnitudeClass z)
  · rintro rfl
    exact inClass_magnitudeClass z

theorem magnitudeClass_mono (h : z ≤ z') : magnitudeClass z ≤ magnitudeClass z' :=
  (inClass_magnitudeClass z).le (inClass_magnitudeClass z') h

theorem sub_classBase (z : ℕ) :
    Checked.sub z (classBase (magnitudeClass z)) = .ok (classOffset z) :=
  if_pos (classBase_magnitudeClass_le z)

theorem whole_offset_lt (h : z < 16384) : classOffset z >>> 3 <
    if magnitudeClass z = 0 then class0Size else 2 ^ classBits (magnitudeClass z) := by
  rw [Nat.shiftRight_eq_div_pow]
  exact Nat.div_lt_of_lt_mul (Magnitude.offset_lt h)

/-- The classes split the magnitudes without a gap or an overlap. -/
theorem magnitudes_split_into_classes (z : ℕ) :
    (wordClassBase (magnitudeClass z) = .ok (classBase (magnitudeClass z)) ∧
      Checked.sub z (classBase (magnitudeClass z)) = .ok (classOffset z) ∧
      classBase (magnitudeClass z) + classOffset z = z) ∧
    (∀ c, InClass c z ↔ c = magnitudeClass z) ∧
    (∀ z', z ≤ z' → magnitudeClass z ≤ magnitudeClass z') ∧
    (∀ z', z' >>> 3 = z >>> 3 → magnitudeClass z' = magnitudeClass z) ∧
    (z < 16384 → wordClassBits (magnitudeClass z) = .ok (classBits (magnitudeClass z)) ∧
      classOffset z >>> 3 <
        if magnitudeClass z = 0 then class0Size else 2 ^ classBits (magnitudeClass z)) := by
  have hcls := magnitudeClass_lt z
  refine ⟨⟨wordClassBase_eq hcls, sub_classBase z, ?_⟩, ?_, ?_, ?_, ?_⟩
  · exact Nat.add_sub_cancel' (classBase_magnitudeClass_le z)
  · intro c
    exact inClass_iff
  · intro z' h
    exact magnitudeClass_mono h
  · intro z' h
    apply magnitudeClass_congr
    simpa only [Nat.shiftRight_eq_div_pow] using h
  · intro h
    exact ⟨wordClassBits_eq hcls, whole_offset_lt h⟩

theorem magnitudes_split_into_classes_edge : InClass 9 8191 ∧ InClass 10 8192 ∧
    magnitudeClass 8191 ≤ magnitudeClass 8192 ∧ magnitudeClass 8199 = magnitudeClass 8192 ∧
    classOffset 16383 >>> 3 < 2 ^ classBits 10 := by
  obtain ⟨-, hlast, -, hlow, -⟩ := magnitudes_split_into_classes 8192
  obtain ⟨-, hbefore, hmono, -, -⟩ := magnitudes_split_into_classes 8191
  obtain ⟨-, -, -, -, hwhole⟩ := magnitudes_split_into_classes 16383
  refine ⟨(hbefore 9).mpr ?_, (hlast 10).mpr rfl, hmono 8192 (by decide), hlow 8199 (by decide), ?_⟩
  · decide
  · exact (hwhole (by decide)).2

end MotionEntropy
