import MotionEntropy.MotionVector
import MotionEntropy.Reference

namespace MotionEntropy

structure Candidate where
  first : MotionVector
  second : MotionVector
  weight : Nat
  deriving DecidableEq

abbrev CandidateStack.capacity : Nat := 8

structure CandidateStack where
  candidates : List Candidate
  globalMotion : MotionVector
  length_le : candidates.length ≤ CandidateStack.capacity
  deriving DecidableEq

namespace CandidateStack

def empty : CandidateStack := ⟨[], .zero, by decide⟩

variable (s : CandidateStack)

def isFull : Bool := s.candidates.length = capacity

theorem length_lt_of_not_isFull (h : ¬s.isFull) : s.candidates.length < capacity :=
  Nat.lt_of_le_of_ne s.length_le (mt decide_eq_true h)

def push (c : Candidate) : CandidateStack :=
  if h : s.isFull then s
  else
    { s with
      candidates := s.candidates ++ [c]
      length_le := by rw [List.length_append]; exact s.length_lt_of_not_isFull h }

def setGlobal (mv : MotionVector) : CandidateStack := { s with globalMotion := mv }

def clear : CandidateStack := { s with candidates := [], length_le := by decide }

end CandidateStack

inductive Mode
  | nearest
  | near
  | global
  | new
  | nearestNearest
  | nearNear
  | nearestNew
  | newNearest
  | nearNew
  | newNear
  | globalGlobal
  | newNew
  deriving DecidableEq

structure Block where
  mode : Mode
  refs : RefPair
  index : Nat
  deriving DecidableEq

def Block.rank (b : Block) : Except Fault Nat :=
  match b.mode with
  | .nearNew | .newNear => do
    require .compoundBlock b.refs.isCompound
    Checked.word64 .add (b.index + 1)
  | _ => .ok b.index

structure Predictor where
  table : Vector CandidateStack RefPair.keyCount

namespace Predictor

def empty : Predictor := ⟨.replicate _ .empty⟩

variable (p : Predictor)

def stack (refs : RefPair) : Except Fault CandidateStack := do
  let k ← refs.key
  Checked.entry p.table k

def update (refs : RefPair) (f : CandidateStack → CandidateStack) : Except Fault Predictor := do
  let k ← refs.key
  let s ← Checked.entry p.table k
  return ⟨p.table.setIfInBounds k (f s)⟩

inductive Action
  | push (refs : RefPair) (c : Candidate)
  | setGlobal (refs : RefPair) (mv : MotionVector)
  | clear (refs : RefPair)

def perform : Action → Except Fault Predictor
  | .push refs c => p.update refs (·.push c)
  | .setGlobal refs mv => p.update refs (·.setGlobal mv)
  | .clear refs => p.update refs .clear

/-- The vector for one of the references: past the candidates it is zero for a compound block, and
the global vector for any other. -/
def vectorAt (refs : RefPair) (which rank : Nat) : Except Fault MotionVector := do
  let s ← p.stack refs
  let candidate := s.candidates[rank]?
  if refs.isCompound then
    require .eitherReference (which = 0 ∨ which = 1)
    return (candidate.map fun c => if which = 1 then c.second else c.first).getD .zero
  else
    require .soleReference (which = 0)
    return (candidate.map Candidate.first).getD s.globalMotion

def blockVector (b : Block) (which : Nat) : Except Fault MotionVector := do
  let rank ← b.rank
  p.vectorAt b.refs which rank

def nearestAndNear (precision : Precision) (frame : RefFrame) :
    Except Fault (MotionVector × MotionVector) := do
  let refs : RefPair := ⟨frame, .absent⟩
  let nearest ← p.vectorAt refs 0 0
  let near ← p.vectorAt refs 0 1
  return (← nearest.lower precision, ← near.lower precision)

end Predictor

end MotionEntropy
