import MotionEntropy.Checked
import MotionEntropy.Precision

namespace MotionEntropy

/-- A displacement in eighths of a pel. -/
structure MotionVector where
  row : Int16
  col : Int16
  deriving DecidableEq

inductive Axis
  | row
  | column
  deriving DecidableEq

def Axis.all : List Axis := [row, column]

def Axis.ofIndex : Nat → Except Fault Axis
  | 0 => .ok row
  | 1 => .ok column
  | i => .error (.index 2 i)

abbrev componentLimit : Int := 16384

namespace MotionVector

def zero : MotionVector := ⟨0, 0⟩

def along (v : MotionVector) : Axis → Int
  | .row => v.row.toInt
  | .column => v.col.toInt

def IsFullPel (v : MotionVector) : Prop := 8 ∣ v.row.toInt ∧ 8 ∣ v.col.toInt

def IsValid (v : MotionVector) : Prop :=
  (-componentLimit < v.row.toInt ∧ v.row.toInt < componentLimit) ∧
    (-componentLimit < v.col.toInt ∧ v.col.toInt < componentLimit)

instance (v : MotionVector) : Decidable v.IsFullPel := inferInstanceAs (Decidable (_ ∧ _))

instance (v : MotionVector) : Decidable v.IsValid := inferInstanceAs (Decidable (_ ∧ _))

def sub (v r : MotionVector) : Except Fault MotionVector := do
  let row ← Checked.int16 .subtract (v.row.toInt - r.row.toInt)
  let col ← Checked.int16 .subtract (v.col.toInt - r.col.toInt)
  return ⟨row, col⟩

def roundComponent (step : Nat) (v : Int16) : Except Fault Int16 := do
  let rest := v.toInt.tmod step
  let inner ← Checked.int16 .subtract (v.toInt - rest)
  if rest.natAbs ≤ step / 2 then
    return inner
  else if 0 < rest then
    Checked.int16 .add (inner.toInt + step)
  else
    Checked.int16 .subtract (inner.toInt - step)

def lower (v : MotionVector) (p : Precision) : Except Fault MotionVector := do
  require .roundedValid v.IsValid
  let row ← roundComponent p.step v.row
  let col ← roundComponent p.step v.col
  return ⟨row, col⟩

def fullPelMagnitude (v : MotionVector) : Nat := max v.row.toInt.natAbs v.col.toInt.natAbs / 8

theorem along_row (v : MotionVector) : v.along .row = v.row.toInt := rfl

theorem along_column (v : MotionVector) : v.along .column = v.col.toInt := rfl

end MotionVector

end MotionEntropy
