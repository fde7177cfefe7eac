import MotionEntropy.Joint
import MotionEntropy.Model
import MotionEntropy.Writer

namespace MotionEntropy

namespace Tables

def writeSymbols (w : Writer) (t : Tables Cdf) :
    List (Symbol × Nat) → Except Fault (Writer × Tables Cdf)
  | [] => .ok (w, t)
  | (s, v) :: rest => do
    let place ← t.place s
    let (w, c) ← w.write place.table v
    writeSymbols w (place.put c) rest

def writeComponent (w : Writer) (t : Tables Cdf) (p : Precision) (comp : Int) :
    Except Fault (Writer × Tables Cdf) := do
  let symbols ← componentSymbols p t.layout comp
  t.writeSymbols w symbols

end Tables

namespace VectorModel

def writeComponent (w : Writer) (m : VectorModel) (p : Precision) (a : Axis) (comp : Int) :
    Except Fault (Writer × VectorModel) := do
  let (w, t) ← (m.component a).writeComponent w p comp
  return (w, m.setComponent a t)

def writeDifference (w : Writer) (m : VectorModel) (p : Precision) (d : MotionVector) :
    Except Fault (Writer × VectorModel) := do
  let (w, joints) ← w.write m.joints d.joint.index
  Axis.all.foldlM
    (fun (w, m) a => if d.joint.moves a then m.writeComponent w p a (d.along a) else pure (w, m))
    (w, { m with joints })

end VectorModel

namespace TileModel

def writeMotion (w : Writer) (t : TileModel) (p : Precision) (mv ref : MotionVector) :
    Except Fault (Writer × TileModel) := do
  require .motionValid mv.IsValid
  let d ← mv.sub ref
  let (w, motion) ← t.motion.writeDifference w p d
  return (w, { t with motion })

def writeBlockCopy (w : Writer) (t : TileModel) (dv ref : MotionVector) :
    Except Fault (Writer × TileModel) := do
  require .targetFullPel dv.IsFullPel
  require .referenceFullPel ref.IsFullPel
  let d ← dv.sub ref
  let (w, blockCopy) ← t.blockCopy.writeDifference w .fullPel d
  return (w, { t with blockCopy })

end TileModel

structure Coder where
  tile : TileModel
  peak : Option Nat

namespace Coder

def writeMotion (w : Writer) (k : Coder) (p : Precision) (mv ref : MotionVector) :
    Except Fault (Writer × Coder) := do
  let (w, tile) ← k.tile.writeMotion w p mv ref
  return (w, ⟨tile, k.peak.map (max mv.fullPelMagnitude)⟩)

def writeBlockCopy (w : Writer) (k : Coder) (dv ref : MotionVector) :
    Except Fault (Writer × Coder) := do
  let (w, tile) ← k.tile.writeBlockCopy w dv ref
  return (w, { k with tile })

def writeComponent (w : Writer) (k : Coder) (p : Precision) (axis : Nat) (comp : Int) :
    Except Fault (Writer × Coder) := do
  let a ← Axis.ofIndex axis
  let (w, motion) ← k.tile.motion.writeComponent w p a comp
  return (w, { k with tile := { k.tile with motion } })

def resetCounts (k : Coder) : Coder := { k with tile := k.tile.resetCounts }

end Coder

end MotionEntropy
