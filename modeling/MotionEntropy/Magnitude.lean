import MotionEntropy.Checked

namespace MotionEntropy

abbrev classCount : Nat := 11

abbrev class0Bits : Nat := 1

abbrev class0Size : Nat := 2

/-- The class of the magnitude `z + 1`; the last class has no upper end. -/
def magnitudeClass (z : Nat) : Nat :=
  if class0Size * 4096 ≤ z then classCount - 1 else (z / 8).log2

def classBase (c : Nat) : Nat :=
  if c = 0 then 0 else (class0Size <<< (c + 2)) % 4294967296

def classBits (c : Nat) : Nat := c + class0Bits - 1

def classOffset (z : Nat) : Nat := z - classBase (magnitudeClass z)

def wordClassBase (c : Nat) : Except Fault Nat :=
  if c = 0 then .ok 0 else do
    let shift ← Checked.word64 .add (c + 2)
    if shift < 64 then return classBase c else throw (.overflow .shiftLeft)

def wordClassBits (c : Nat) : Except Fault Nat := do
  let bits ← Checked.word64 .add (c + class0Bits)
  return bits - 1

structure Magnitude where
  cls : Nat
  whole : Nat
  fraction : Nat
  eighth : Nat
  deriving DecidableEq

namespace Magnitude

def ofNat (z : Nat) : Magnitude :=
  let offset := classOffset z
  ⟨magnitudeClass z, offset / 8, offset / 2 % 4, offset % 2⟩

def toNat (m : Magnitude) : Nat := classBase m.cls + 8 * m.whole + 2 * m.fraction + m.eighth

end Magnitude

theorem magnitudeClass_of_lt {z : Nat} (h : z < 8192) : magnitudeClass z = (z / 8).log2 :=
  if_neg (Nat.not_le.mpr h)

theorem magnitudeClass_of_le {z : Nat} (h : 8192 ≤ z) : magnitudeClass z = 10 := if_pos h

theorem magnitudeClass_lt (z : Nat) : magnitudeClass z < classCount := by
  by_cases h : 8192 ≤ z
  · rw [magnitudeClass_of_le h]; decide
  · rw [magnitudeClass_of_lt (by omega)]
    by_cases h0 : z / 8 = 0
    · rw [h0]; decide
    · exact Nat.lt_trans ((Nat.log2_lt h0).mpr (show z / 8 < 2 ^ 10 by omega)) (by decide)

theorem classBase_eq {c : Nat} (h0 : c ≠ 0) (h : c < classCount) : classBase c = 8 <<< c := by
  have hshift : class0Size <<< (c + 2) = 8 <<< c := by
    rw [Nat.add_comm, Nat.shiftLeft_add]
    rfl
  have hpow : 2 ^ c ≤ 2 ^ 10 := Nat.pow_le_pow_right (by decide) (Nat.le_of_lt_succ h)
  have hword : 8 <<< c < 4294967296 := by
    rw [Nat.shiftLeft_eq]
    omega
  rw [classBase, if_neg h0, hshift, Nat.mod_eq_of_lt hword]

theorem classBase_magnitudeClass_le (z : Nat) : classBase (magnitudeClass z) ≤ z := by
  by_cases h : 8192 ≤ z
  · rw [magnitudeClass_of_le h]; exact h
  · by_cases h0 : (z / 8).log2 = 0
    · rw [magnitudeClass_of_lt (by omega), h0]; exact Nat.zero_le z
    · have hlt := magnitudeClass_lt z
      rw [magnitudeClass_of_lt (by omega)] at hlt ⊢
      rw [classBase_eq h0 hlt, Nat.shiftLeft_eq]
      have hz : z / 8 ≠ 0 := fun e => h0 (by rw [e]; rfl)
      have := Nat.log2_self_le hz
      omega

end MotionEntropy
