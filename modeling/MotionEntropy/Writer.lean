import MotionEntropy.Cdf

namespace MotionEntropy

structure Record where
  value : Nat
  alphabet : Nat
  cost : Nat
  deriving DecidableEq

inductive Ledger
  | tally (cost count : Nat)
  | journal (records : List Record)
  deriving DecidableEq

namespace Ledger

def enter (r : Record) : Ledger → Except Fault Ledger
  | tally cost count => do
    let cost ← Checked.word64 .add (cost + r.cost)
    let count ← Checked.word64 .add (count + 1)
    return tally cost count
  | journal records => .ok (journal (records ++ [r]))

def total : Ledger → Nat
  | tally cost _ => cost
  | journal records => records.foldr (fun r sum => r.cost + sum) 0

def count : Ledger → Nat
  | tally _ count => count
  | journal records => records.length

end Ledger

structure Writer where
  adapts : Bool
  ledger : Ledger
  deriving DecidableEq

namespace Writer

abbrev totalShift : Nat := 3

def counter (adapts : Bool) : Writer := ⟨adapts, .tally 0 0⟩

def recorder (adapts : Bool) : Writer := ⟨adapts, .journal []⟩

variable {n : Nat} (w : Writer)

def write (c : Cdf n) (s : Nat) : Except Fault (Writer × Cdf n) := do
  let cost ← c.symbolCost s
  let ledger ← w.ledger.enter ⟨s, n, cost⟩
  let c ← if w.adapts then c.adapt s else pure c
  return ({ w with ledger }, c)

def cost : Except Fault Nat := Checked.word64 .add w.ledger.total

def roundedTotal : Except Fault Nat := do
  let cost ← w.cost
  let shift := costShift - totalShift
  let rounded ← Checked.word64 .add (cost + 1 <<< (shift - 1))
  return rounded >>> shift % 4294967296

end Writer

end MotionEntropy
