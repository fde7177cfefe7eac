import MotionEntropy.Symbol

namespace MotionEntropy

inductive SubpelOption
  | highPrecision
  | halfPelOnly
  deriving DecidableEq

def SubpelOption.name : SubpelOption → String
  | highPrecision => "allow_high_precision_mv"
  | halfPelOnly => "allow_half_precision_only"

inductive Rejection
  | halfPelWithJointLayout
  | subpelWithIntegers (option : SubpelOption)
  deriving DecidableEq

def Rejection.message : Rejection → String
  | halfPelWithJointLayout => "half precision only mode requires the split fractional layout"
  | subpelWithIntegers o =>
    "invalid option " ++ o.name ++ " specified with integer motion vectors"

inductive Notice
  | rejecting (r : Rejection)
  | pricing (p : Precision) (layout : Layout)
  deriving DecidableEq

def Notice.text : Notice → String
  | rejecting r => "WARN Rejecting motion vector coding config: " ++ r.message
  | pricing p layout =>
    "DEBUG Building MV cost tables at " ++ p.name ++ ", " ++ layout.name ++ " fractional layout"

structure Config where
  highPrecision : Bool
  integersOnly : Bool
  halfPelOnly : Bool
  layout : Layout
  tracksPeak : Bool
  deriving DecidableEq

namespace Config

def standard : Config := ⟨true, false, false, .split, false⟩

variable (c : Config)

def precision : Precision :=
  if c.integersOnly then .fullPel
  else if c.highPrecision then .eighthPel
  else if c.halfPelOnly then .halfPel
  else .quarterPel

def validate : Except Rejection Unit :=
  if c.integersOnly && c.highPrecision then .error (.subpelWithIntegers .highPrecision)
  else if c.integersOnly && c.halfPelOnly then .error (.subpelWithIntegers .halfPelOnly)
  else if c.halfPelOnly && c.layout = .joint then .error .halfPelWithJointLayout
  else .ok ()

def validationLog : List Notice :=
  match c.validate with
  | .ok () => []
  | .error r => [.rejecting r]

end Config

end MotionEntropy
