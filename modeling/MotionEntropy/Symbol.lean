import MotionEntropy.Magnitude
import MotionEntropy.MotionVector

namespace MotionEntropy

inductive Layout
  | joint
  | split
  deriving DecidableEq

def Layout.name : Layout → String
  | joint => "Joint"
  | split => "Split"

inductive Symbol
  | sign
  | magnitudeClass
  | class0
  | bit (i : Nat)
  | class0Fraction (whole slot : Nat)
  | fraction (slot : Nat)
  | class0Eighth
  | eighth
  deriving DecidableEq

namespace Magnitude

variable (m : Magnitude) (p : Precision) (layout : Layout)

def wholeSymbols : List (Symbol × Nat) :=
  if m.cls = 0 then
    [(.class0, m.whole)]
  else
    (List.range (classBits m.cls)).map fun i => (.bit i, m.whole >>> i % 2)

def fractionTable (slot : Nat) : Symbol :=
  if m.cls = 0 then .class0Fraction m.whole slot else .fraction slot

/-- In the split layout the high bit has slot 0, and chooses the slot of the low bit. -/
def fractionSymbols : List (Symbol × Nat) :=
  if p = .fullPel then
    []
  else
    match layout with
    | .joint => [(m.fractionTable 0, m.fraction)]
    | .split =>
      let high := m.fraction / 2
      (m.fractionTable 0, high) ::
        if .quarterPel ≤ p then [(m.fractionTable (1 + high), m.fraction % 2)] else []

def eighthSymbols : List (Symbol × Nat) :=
  if p = .eighthPel then
    [(if m.cls = 0 then .class0Eighth else .eighth, m.eighth)]
  else
    []

def symbols : List (Symbol × Nat) :=
  (.magnitudeClass, m.cls) ::
    (m.wholeSymbols ++ (m.fractionSymbols p layout ++ m.eighthSymbols p))

end Magnitude

def signSymbol (comp : Int) : Symbol × Nat := (.sign, if comp < 0 then 1 else 0)

def componentSymbols (p : Precision) (layout : Layout) (comp : Int) :
    Except Fault (List (Symbol × Nat)) := do
  require .nonzeroComponent (comp ≠ 0)
  require .componentInRange (-componentLimit ≤ comp ∧ comp ≤ componentLimit)
  return signSymbol comp :: (Magnitude.ofNat (comp.natAbs - 1)).symbols p layout

theorem componentSymbols_eq_ok {p : Precision} {layout : Layout} {comp : Int}
    (h0 : comp ≠ 0) (h : -componentLimit ≤ comp ∧ comp ≤ componentLimit) :
    componentSymbols p layout comp =
      .ok (signSymbol comp :: (Magnitude.ofNat (comp.natAbs - 1)).symbols p layout) := by
  simp only [componentSymbols, require, if_pos h0, if_pos h]
  rfl

end MotionEntropy
