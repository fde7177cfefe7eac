import MotionEntropy.Logarithm

namespace MotionEntropy

/-- The adaptive distribution of `n` symbols: for each but the last the probability, out of 32768,
of all symbols after it, and in the last slot the number of adaptations, counted up to 32. -/
structure Cdf (n : Nat) where
  slots : Vector Nat n
  deriving DecidableEq

/-- Costs are in units of `2 ^ -costShift` bits. -/
abbrev costShift : Nat := 9

abbrev Prices (n : Nat) : Type := Vector Nat n

namespace Cdf

variable {n k : Nat}

def ofList (slots : List Nat) : Cdf slots.length := ⟨⟨slots.toArray, rfl⟩⟩

def ofFrequencies (freqs : Vector Nat k) : Cdf (k + 1) := ⟨(freqs.map (32768 - ·)).push 0⟩

def build (freqs : List Nat) (size : Nat) : Except Fault (Cdf (freqs.length + 1)) := do
  require .slotPerSymbol (size = freqs.length + 1)
  require .frequencyInScale (∀ f ∈ freqs, f ≤ 32768)
  return ofFrequencies ⟨freqs.toArray, rfl⟩

variable (c : Cdf n)

def count : Nat := c.slots.back?.getD 0

def probability (s : Nat) : Except Fault Nat := do
  let above ← if s = 0 then pure 32768 else Checked.entry c.slots (s - 1)
  let below ← if s + 1 < n then Checked.entry c.slots s else pure 0
  Checked.sub above below

def symbolCost (s : Nat) : Except Fault Nat := do
  require .symbolInAlphabet (s < n)
  let p ← c.probability s
  Logarithm.cost p costShift

def costs : Except Fault (Prices n) := Checked.collect fun s => c.symbolCost s

def rate : Nat := 3 + min (n / 2) 2 + c.count / 16

def Adaptable (s : Nat) : Prop :=
  c.count < 64 ∧ ∀ i : Fin n, i < s ∧ i + 1 < n → c.slots.get i ≤ 32768

instance (s : Nat) : Decidable (c.Adaptable s) := inferInstanceAs (Decidable (_ ∧ _))

def moved (s : Nat) : Cdf n :=
  ⟨c.slots.mapIdx fun i v =>
    if i + 1 = n then v + (1 - v / 32)
    else if s ≤ i then v - v >>> c.rate
    else v + (32768 - v) >>> c.rate⟩

def adapt (s : Nat) : Except Fault (Cdf n) :=
  if c.Adaptable s then .ok (c.moved s) else .error (.overflow .subtract)

def resetCount : Cdf n := ⟨c.slots.mapIdx fun i v => if i + 1 = n then 0 else v⟩

end Cdf

end MotionEntropy
