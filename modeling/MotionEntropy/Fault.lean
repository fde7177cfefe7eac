namespace MotionEntropy

inductive Requirement
  | nonzeroComponent
  | componentInRange
  | priceInReach
  | motionValid
  | roundedValid
  | targetFullPel
  | referenceFullPel
  | soleReference
  | eitherReference
  | compoundBlock
  | signalablePair
  | symbolInAlphabet
  | scaleInRange
  | exponentInRange
  | slotPerSymbol
  | frequencyInScale
  deriving DecidableEq

def Requirement.text : Requirement → String
  | nonzeroComponent => "comp != 0"
  | componentInRange => "(MV_LOW..=MV_UPP).contains(&comp)"
  | priceInReach => "v.unsigned_abs() as usize <= MV_MAX"
  | motionValid => "mv.is_valid()"
  | roundedValid => "self.is_valid()"
  | targetFullPel => "dv.is_fullpel()"
  | referenceFullPel => "ref_dv.is_fullpel()"
  | soleReference => "ref_idx == 0"
  | eitherReference => "ref_idx == 0 || ref_idx == 1"
  | compoundBlock => "self.is_compound()"
  | signalablePair => "ref_frames[0].is_fwd_ref() && ref_frames[1].is_bwd_ref()"
  | symbolInAlphabet => "(s as usize) < cdf.len()"
  | scaleInRange => "shift < 57"
  | exponentInRange => "v >= -64 && v <= 63"
  | slotPerSymbol => "CDF_LEN == VARS + 1"
  | frequencyInScale => "vars[i] <= 32768"

inductive Operation
  | add
  | subtract
  | shiftLeft
  deriving DecidableEq

def Operation.name : Operation → String
  | add => "add"
  | subtract => "subtract"
  | shiftLeft => "shift left"

inductive Fault
  | broken (requirement : Requirement)
  | overflow (operation : Operation)
  | index (length position : Nat)
  deriving DecidableEq

def Fault.message : Fault → String
  | broken r => "assertion failed: " ++ r.text
  | overflow o => "attempt to " ++ o.name ++ " with overflow"
  | index n i => "index out of bounds: the len is " ++ toString n ++ " but the index is " ++ toString i

def require (r : Requirement) (p : Prop) [Decidable p] : Except Fault Unit :=
  if p then .ok () else .error (.broken r)

end MotionEntropy
