import MotionEntropy.Coder

namespace MotionEntropy

structure Pass where
  coder : Coder
  writers : List Writer
  saved : List TileModel

namespace Pass

inductive Action
  | writeMotion (writer : Nat) (p : Precision) (mv ref : MotionVector)
  | writeBlockCopy (writer : Nat) (dv ref : MotionVector)
  | writeComponent (writer : Nat) (p : Precision) (axis : Nat) (comp : Int)
  | checkpoint
  | rollback (mark : Nat)
  | resetCounts

variable (s : Pass)

def writing (i : Nat) (f : Writer → Coder → Except Fault (Writer × Coder)) :
    Except Fault Pass := do
  let w ← Checked.item s.writers i
  let (w, coder) ← f w s.coder
  return { s with coder, writers := s.writers.set i w }

def perform : Action → Except Fault Pass
  | .writeMotion i p mv ref => s.writing i fun w k => k.writeMotion w p mv ref
  | .writeBlockCopy i dv ref => s.writing i fun w k => k.writeBlockCopy w dv ref
  | .writeComponent i p axis comp => s.writing i fun w k => k.writeComponent w p axis comp
  | .checkpoint => .ok { s with saved := s.saved ++ [s.coder.tile] }
  | .rollback mark => do
    let tile ← Checked.item s.saved mark
    return { s with coder := { s.coder with tile } }
  | .resetCounts => .ok { s with coder := s.coder.resetCounts }

end Pass

end MotionEntropy
