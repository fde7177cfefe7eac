import MotionEntropy.Checked

namespace MotionEntropy

inductive RefFrame
  | intra
  | last
  | last2
  | last3
  | golden
  | backward
  | altref2
  | altref
  | absent
  deriving DecidableEq

namespace RefFrame

def index : RefFrame → Nat
  | intra => 0
  | last => 1
  | last2 => 2
  | last3 => 3
  | golden => 4
  | backward => 5
  | altref2 => 6
  | altref => 7
  | absent => 8

def all : List RefFrame := [intra, last, last2, last3, golden, backward, altref2, altref, absent]

def isForward (r : RefFrame) : Bool := r.index < 5

def isBackward (r : RefFrame) : Bool := 5 ≤ r.index

def isInter (r : RefFrame) : Bool := r ≠ intra && r ≠ absent

theorem index_lt (r : RefFrame) : r.index < 9 := by cases r <;> decide

end RefFrame

structure RefPair where
  first : RefFrame
  second : RefFrame
  deriving DecidableEq

namespace RefPair

abbrev singleCount : Nat := 8

abbrev forwardCount : Nat := 4

abbrev backwardCount : Nat := 3

abbrev unidirectionalCount : Nat := 9

abbrev compoundCount : Nat := forwardCount * backwardCount + unidirectionalCount

abbrev keyCount : Nat := singleCount + compoundCount

def isCompound (r : RefPair) : Bool := r.second.isInter

def unidirectionalFirsts : List RefFrame :=
  [.last, .last, .last, .backward, .last2, .last2, .last3, .backward, .altref2]

def unidirectionalSeconds : List RefFrame :=
  [.last2, .last3, .golden, .altref, .last3, .golden, .golden, .altref2, .altref]

def unidirectionalIndex? (r : RefPair) : Option Nat :=
  (unidirectionalFirsts.zip unidirectionalSeconds).findIdx? fun f =>
    f.1 = r.first ∧ f.2 = r.second

/-- Single frames have their own index; after them come the pairs of a forward and a backward
frame, then the pairs of one direction. -/
def key (r : RefPair) : Except Fault Nat :=
  if r.isCompound then
    match r.unidirectionalIndex? with
    | some i => .ok (singleCount + forwardCount * backwardCount + i)
    | none => do
      require .signalablePair (r.first.isForward && r.second.isBackward)
      let forward ← Checked.sub r.first.index RefFrame.last.index
      let backward ← Checked.sub r.second.index RefFrame.backward.index
      return singleCount + forward + backward * forwardCount
  else .ok r.first.index

/-- The compound pairs that have keys, in the order of their keys. -/
def signalable : List RefPair :=
  [⟨.last, .backward⟩, ⟨.last2, .backward⟩, ⟨.last3, .backward⟩, ⟨.golden, .backward⟩,
    ⟨.last, .altref2⟩, ⟨.last2, .altref2⟩, ⟨.last3, .altref2⟩, ⟨.golden, .altref2⟩,
    ⟨.last, .altref⟩, ⟨.last2, .altref⟩, ⟨.last3, .altref⟩, ⟨.golden, .altref⟩,
    ⟨.last, .last2⟩, ⟨.last, .last3⟩, ⟨.last, .golden⟩, ⟨.backward, .altref⟩, ⟨.last2, .last3⟩,
    ⟨.last2, .golden⟩, ⟨.last3, .golden⟩, ⟨.backward, .altref2⟩, ⟨.altref2, .altref⟩]

theorem map_key_signalable : signalable.map key =
    (List.range compoundCount).map fun i => .ok (singleCount + i) := rfl

end RefPair

end MotionEntropy
