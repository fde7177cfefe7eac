import MotionEntropy.MotionVector

namespace MotionEntropy

inductive Joint
  | neither
  | columnOnly
  | rowOnly
  | both
  deriving DecidableEq

namespace Joint

def all : List Joint := [neither, columnOnly, rowOnly, both]

def index : Joint → Nat
  | neither => 0
  | columnOnly => 1
  | rowOnly => 2
  | both => 3

def moves : Joint → Axis → Bool
  | neither, _ => false
  | columnOnly, .row => false
  | columnOnly, .column => true
  | rowOnly, .row => true
  | rowOnly, .column => false
  | both, _ => true

end Joint

def MotionVector.joint (d : MotionVector) : Joint :=
  if d.row = 0 then
    if d.col = 0 then .neither else .columnOnly
  else
    if d.col = 0 then .rowOnly else .both

theorem Joint.index_lt (j : Joint) : j.index < 4 := by cases j <;> decide

theorem MotionVector.moves_joint (d : MotionVector) (a : Axis) :
    d.joint.moves a = decide (d.along a ≠ 0) := by
  have toInt_zero (v : Int16) : v.toInt = 0 ↔ v = 0 := by
    rw [← Int16.toInt_inj]; rfl
  by_cases hr : d.row = 0 <;> by_cases hc : d.col = 0 <;> cases a <;>
    simp [MotionVector.joint, Joint.moves, MotionVector.along, toInt_zero, hr, hc]

end MotionEntropy
