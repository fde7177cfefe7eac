import MotionEntropy.Config
import MotionEntropy.Pass
import MotionEntropy.Predictor
import MotionEntropy.Prices

namespace MotionEntropy

structure Session where
  config : Config
  pass : Pass
  prices : List VectorPrices
  log : List Notice

namespace Session

def ofConfig (c : Config) (writers : List Writer) : Session where
  config := c
  pass := ⟨⟨.initial c.layout, if c.tracksPeak then some 0 else none⟩, writers, []⟩
  prices := []
  log := []

def start (c : Config) (writers : List Writer) : Except Rejection Session := do
  c.validate
  return ofConfig c writers

def startLog (c : Config) : List Notice := c.validationLog

inductive Action
  | writeMotion (writer : Nat) (mv ref : MotionVector)
  | writeBlockCopy (writer : Nat) (dv ref : MotionVector)
  | priceMotion
  | priceBlockCopy
  | checkpoint
  | rollback (mark : Nat)
  | resetCounts

variable (s : Session)

def passing (a : Pass.Action) : Except Fault Session := do
  let pass ← s.pass.perform a
  return { s with pass }

def pricing (m : VectorModel) (p : Precision) : Except Fault Session := do
  let prices ← VectorPrices.build m p
  return { s with
    prices := s.prices ++ [prices]
    log := s.log ++ [.pricing p m.row.layout] }

def perform : Action → Except Fault Session
  | .writeMotion i mv ref => s.passing (.writeMotion i s.config.precision mv ref)
  | .writeBlockCopy i dv ref => s.passing (.writeBlockCopy i dv ref)
  | .priceMotion => s.pricing s.pass.coder.tile.motion s.config.precision
  | .priceBlockCopy => s.pricing s.pass.coder.tile.blockCopy .fullPel
  | .checkpoint => s.passing .checkpoint
  | .rollback mark => s.passing (.rollback mark)
  | .resetCounts => s.passing .resetCounts

def writeBlock (p : Predictor) (writer : Nat) (b : Block) (which : Nat) (mv : MotionVector) :
    Except Fault (MotionVector × Session) := do
  let ref ← p.blockVector b which
  let s ← s.perform (.writeMotion writer mv ref)
  return (ref, s)

def quote (list : Nat) (mv ref : MotionVector) : Except Fault Nat := do
  let prices ← Checked.item s.prices list
  prices.quote mv ref

end Session

end MotionEntropy
