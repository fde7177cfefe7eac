import MotionEntropy.Symbol

namespace MotionEntropy

abbrev offsetBits : Nat := 10

abbrev fractionSize : Nat := 4

abbrev fractionSlots : Nat := 3

inductive FractionTables (α : Nat → Type)
  | joint (class0 : Vector (α fractionSize) class0Size) (other : α fractionSize)
  | split (class0 : Vector (Vector (α 2) fractionSlots) class0Size)
      (other : Vector (α 2) fractionSlots)

/-- What is kept for each table of a component, an `α n` for a table of `n` symbols. -/
structure Tables (α : Nat → Type) where
  sign : α 2
  classes : α classCount
  class0 : α class0Size
  bits : Vector (α 2) offsetBits
  fraction : FractionTables α
  class0Eighth : α 2
  eighth : α 2

variable {α β : Nat → Type}

namespace FractionTables

def layout : FractionTables α → Layout
  | joint _ _ => .joint
  | split _ _ => .split

def map (f : {n : Nat} → α n → β n) : FractionTables α → FractionTables β
  | joint class0 other => joint (class0.map f) (f other)
  | split class0 other => split (class0.map (·.map f)) (other.map f)

def traverse (f : Symbol → {n : Nat} → α n → Except Fault (β n)) :
    FractionTables α → Except Fault (FractionTables β)
  | joint class0 other => do
    let class0 ← Checked.collect fun d => f (.class0Fraction d 0) class0[d]
    let other ← f (.fraction 0) other
    return joint class0 other
  | split class0 other => do
    let class0 ← Checked.collect fun d =>
      Checked.collect fun slot => f (.class0Fraction d slot) class0[d][slot]
    let other ← Checked.collect fun slot => f (.fraction slot) other[slot]
    return split class0 other

end FractionTables

/-- The table that a symbol names, and the tables with another in its place. -/
structure Place (α : Nat → Type) where
  size : Nat
  table : α size
  put : α size → Tables α

def Layout.symbols : Layout → List Symbol
  | layout =>
    [.sign, .magnitudeClass, .class0] ++ (List.range offsetBits).map .bit ++
      (match layout with
        | .joint => [.class0Fraction 0 0, .class0Fraction 1 0, .fraction 0]
        | .split =>
          [.class0Fraction 0 0, .class0Fraction 0 1, .class0Fraction 0 2, .class0Fraction 1 0,
            .class0Fraction 1 1, .class0Fraction 1 2, .fraction 0, .fraction 1, .fraction 2]) ++
      [.class0Eighth, .eighth]

namespace Tables

def layout (t : Tables α) : Layout := t.fraction.layout

def place (t : Tables α) : Symbol → Except Fault (Place α)
  | .sign => .ok ⟨_, t.sign, fun a => { t with sign := a }⟩
  | .magnitudeClass => .ok ⟨_, t.classes, fun a => { t with classes := a }⟩
  | .class0 => .ok ⟨_, t.class0, fun a => { t with class0 := a }⟩
  | .bit i =>
    if h : i < offsetBits then
      .ok ⟨_, t.bits[i], fun a => { t with bits := t.bits.set i a }⟩
    else .error (.index offsetBits i)
  | .class0Fraction d slot =>
    match t.fraction with
    | .joint class0 other =>
      if slot ≠ 0 then .error (.index 1 slot)
      else if h : d < class0Size then
        .ok ⟨_, class0[d], fun a => { t with fraction := .joint (class0.set d a) other }⟩
      else .error (.index class0Size d)
    | .split class0 other =>
      if h : d < class0Size then
        if h' : slot < fractionSlots then
          .ok ⟨_, class0[d][slot], fun a =>
            { t with fraction := .split (class0.set d (class0[d].set slot a)) other }⟩
        else .error (.index fractionSlots slot)
      else .error (.index class0Size d)
  | .fraction slot =>
    match t.fraction with
    | .joint class0 other =>
      if slot ≠ 0 then .error (.index 1 slot)
      else .ok ⟨_, other, fun a => { t with fraction := .joint class0 a }⟩
    | .split class0 other =>
      if h : slot < fractionSlots then
        .ok ⟨_, other[slot], fun a => { t with fraction := .split class0 (other.set slot a) }⟩
      else .error (.index fractionSlots slot)
  | .class0Eighth => .ok ⟨_, t.class0Eighth, fun a => { t with class0Eighth := a }⟩
  | .eighth => .ok ⟨_, t.eighth, fun a => { t with eighth := a }⟩

def find (t : Tables α) (s : Symbol) : Except Fault (Σ n, α n) := do
  let p ← t.place s
  return ⟨p.size, p.table⟩

def map (f : {n : Nat} → α n → β n) (t : Tables α) : Tables β where
  sign := f t.sign
  classes := f t.classes
  class0 := f t.class0
  bits := t.bits.map f
  fraction := t.fraction.map f
  class0Eighth := f t.class0Eighth
  eighth := f t.eighth

def traverse (f : Symbol → {n : Nat} → α n → Except Fault (β n)) (t : Tables α) :
    Except Fault (Tables β) := do
  let fraction ← t.fraction.traverse f
  let class0Eighth ← f .class0Eighth t.class0Eighth
  let eighth ← f .eighth t.eighth
  let sign ← f .sign t.sign
  let classes ← f .magnitudeClass t.classes
  let class0 ← f .class0 t.class0
  let bits ← Checked.collect fun i => f (.bit i) t.bits[i]
  return { sign, classes, class0, bits, fraction, class0Eighth, eighth }

end Tables

end MotionEntropy
