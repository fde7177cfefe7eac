import MotionEntropy.Joint
import MotionEntropy.Model

namespace MotionEntropy

structure ComponentPrices where
  tables : Tables Prices
  precision : Precision

def Symbol.pricedAt (p : Precision) : Symbol → Bool
  | .class0Fraction _ _ | .fraction _ => p ≠ .fullPel
  | .class0Eighth | .eighth => p = .eighthPel
  | _ => true

namespace FractionTables

variable (f : FractionTables Prices)

/-- In the joint layout the slot says nothing. -/
def class0Price (d slot v : Nat) : Except Fault Nat :=
  match f with
  | joint class0 _ => do Checked.entry (← Checked.entry class0 d) v
  | split class0 _ => do Checked.entry (← Checked.entry (← Checked.entry class0 d) slot) v

def otherPrice (slot v : Nat) : Except Fault Nat :=
  match f with
  | joint _ other => Checked.entry other v
  | split _ other => do Checked.entry (← Checked.entry other slot) v

end FractionTables

namespace ComponentPrices

def tablePrices (p : Precision) (s : Symbol) {n : Nat} (c : Cdf n) : Except Fault (Prices n) :=
  if s.pricedAt p then c.costs else .ok (.replicate n 0)

def build (t : Tables Cdf) (p : Precision) : Except Fault ComponentPrices := do
  let tables ← t.traverse (tablePrices p)
  return ⟨tables, p⟩

variable (c : ComponentPrices)

def symbolPrice : Symbol × Nat → Except Fault Nat
  | (.sign, v) => Checked.entry c.tables.sign v
  | (.magnitudeClass, v) => Checked.entry c.tables.classes v
  | (.class0, v) => Checked.entry c.tables.class0 v
  | (.bit i, v) => do Checked.entry (← Checked.entry c.tables.bits i) v
  | (.class0Fraction d slot, v) => c.tables.fraction.class0Price d slot v
  | (.fraction slot, v) => c.tables.fraction.otherPrice slot v
  | (.class0Eighth, v) => Checked.entry c.tables.class0Eighth v
  | (.eighth, v) => Checked.entry c.tables.eighth v

def total (symbols : List (Symbol × Nat)) : Except Fault Nat :=
  symbols.foldlM (fun sum s => do Checked.word32 .add (sum + (← c.symbolPrice s))) 0

def quote (comp : Int) : Except Fault Nat := do
  c.total (← componentSymbols c.precision c.tables.layout comp)

def unsignedQuote (z : Nat) : Except Fault Nat :=
  c.total ((Magnitude.ofNat z).symbols c.precision c.tables.layout)

end ComponentPrices

structure PriceTable where
  entries : Array Nat

namespace PriceTable

abbrev reach : Nat := 16383

def ofPrices (c : ComponentPrices) : Except Fault PriceTable := do
  let unsigned ← (List.range reach).mapM c.unsignedQuote
  let positive ← unsigned.mapM fun v => Checked.word32 .add (v + c.tables.sign[0])
  let negative ← unsigned.mapM fun v => Checked.word32 .add (v + c.tables.sign[1])
  return ⟨(negative.reverse ++ 0 :: positive).toArray⟩

def build (t : Tables Cdf) (p : Precision) : Except Fault PriceTable := do
  ofPrices (← ComponentPrices.build t p)

def get (t : PriceTable) (comp : Int) : Except Fault Nat := do
  require .priceInReach (comp.natAbs ≤ reach)
  Checked.entry t.entries.toVector (reach + comp).toNat

end PriceTable

structure VectorPrices where
  joints : Prices 4
  row : PriceTable
  column : PriceTable
  precision : Precision

namespace VectorPrices

def build (m : VectorModel) (p : Precision) : Except Fault VectorPrices := do
  let joints ← m.joints.costs
  let row ← PriceTable.build m.row p
  let column ← PriceTable.build m.column p
  return ⟨joints, row, column, p⟩

def component (t : VectorPrices) : Axis → PriceTable
  | .row => t.row
  | .column => t.column

def quote (t : VectorPrices) (mv ref : MotionVector) : Except Fault Nat := do
  let d ← mv.sub ref
  Axis.all.foldlM
    (fun sum a =>
      if d.joint.moves a then do
        Checked.word32 .add (sum + (← (t.component a).get (d.along a)))
      else pure sum)
    (t.joints.get ⟨d.joint.index, d.joint.index_lt⟩)

end VectorPrices

end MotionEntropy
