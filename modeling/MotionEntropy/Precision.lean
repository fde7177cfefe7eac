namespace MotionEntropy

inductive Precision
  | fullPel
  | halfPel
  | quarterPel
  | eighthPel
  deriving DecidableEq

namespace Precision

def all : List Precision := [fullPel, halfPel, quarterPel, eighthPel]

def tier : Precision → Nat
  | fullPel => 0
  | halfPel => 1
  | quarterPel => 2
  | eighthPel => 3

def ofTier? (n : Int) : Option Precision := all.find? fun p => p.tier = n

def step : Precision → Nat
  | fullPel => 8
  | halfPel => 4
  | quarterPel => 2
  | eighthPel => 1

def name : Precision → String
  | fullPel => "MV_SUBPEL_NONE"
  | halfPel => "MV_SUBPEL_HALF_PRECISION"
  | quarterPel => "MV_SUBPEL_QTR_PRECISION"
  | eighthPel => "MV_SUBPEL_HIGH_PRECISION"

instance : LE Precision := ⟨fun p q => p.tier ≤ q.tier⟩

instance (p q : Precision) : Decidable (p ≤ q) := inferInstanceAs (Decidable (p.tier ≤ q.tier))

end Precision

end MotionEntropy
