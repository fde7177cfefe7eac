import MotionEntropy.Predictor
import MotionEntropy.Proofs.FaultPropagation

namespace MotionEntropy

/-- What a block is predicted from, however its pair says that there is no second reference. -/
inductive RefSet
  | single (frame : RefFrame)
  | compound (pair : RefPair)
  deriving DecidableEq

theorem RefFrame.mem_all (r : RefFrame) : r ∈ RefFrame.all := by cases r <;> decide

namespace RefPair

def forwardFrames : List RefFrame := [.last, .last2, .last3, .golden]

def backwardFrames : List RefFrame := [.backward, .altref2, .altref]

def IsSingle (r : RefPair) : Prop :=
  r.first ∈ forwardFrames ++ backwardFrames ∧ (r.second = .absent ∨ r.second = .intra)

def IsBidirectional (r : RefPair) : Prop := r.first ∈ forwardFrames ∧ r.second ∈ backwardFrames

def unidirectional : List RefPair :=
  [⟨.last, .last2⟩, ⟨.last, .last3⟩, ⟨.last, .golden⟩, ⟨.last2, .last3⟩, ⟨.last2, .golden⟩,
    ⟨.last3, .golden⟩, ⟨.backward, .altref2⟩, ⟨.backward, .altref⟩, ⟨.altref2, .altref⟩]

/-- The pairs that a block can have. -/
def Usable (r : RefPair) : Prop := r.IsSingle ∨ r.IsBidirectional ∨ r ∈ unidirectional

instance (r : RefPair) : Decidable r.IsSingle := inferInstanceAs (Decidable (_ ∧ _))

instance (r : RefPair) : Decidable r.IsBidirectional := inferInstanceAs (Decidable (_ ∧ _))

instance (r : RefPair) : Decidable r.Usable := inferInstanceAs (Decidable (_ ∨ _))

def set (r : RefPair) : RefSet := if r.isCompound then .compound r else .single r.first

/-- The set that each key is for. -/
def slots : List RefSet := (RefFrame.all.take singleCount).map .single ++ signalable.map .compound

variable {r r' : RefPair} {k k' : ℕ}

theorem forall_of_frames {P : RefPair → Prop}
    (h : ∀ a ∈ RefFrame.all, ∀ b ∈ RefFrame.all, P ⟨a, b⟩) (r : RefPair) : P r :=
  h r.first r.first.mem_all r.second r.second.mem_all

theorem Usable.isSingle_iff (h : r.Usable) : r.IsSingle ↔ r.isCompound = false := by
  revert r
  apply forall_of_frames
  decide

theorem Usable.mem_signalable (h : r.Usable) (hr : ¬r.IsSingle) : r ∈ signalable := by
  revert r
  apply forall_of_frames
  decide

theorem set_of_single (h : r.isCompound = false) : r.set = .single r.first := by
  rw [set, h]
  rfl

theorem set_of_compound (h : r.isCompound = true) : r.set = .compound r := if_pos h

theorem set_eq_iff : r.set = r'.set ↔
    r = r' ∨ (r.isCompound = false ∧ r'.isCompound = false ∧ r.first = r'.first) := by
  constructor
  · intro h
    cases hr : r.isCompound with
    | true =>
      cases hr' : r'.isCompound with
      | true =>
        rw [set_of_compound hr, set_of_compound hr'] at h
        exact .inl (RefSet.compound.inj h)
      | false =>
        rw [set_of_compound hr, set_of_single hr'] at h
        cases h
    | false =>
      cases hr' : r'.isCompound with
      | true =>
        rw [set_of_single hr, set_of_compound hr'] at h
        cases h
      | false =>
        rw [set_of_single hr, set_of_single hr'] at h
        exact .inr ⟨rfl, rfl, RefSet.single.inj h⟩
  · rintro (rfl | ⟨hr, hr', hfirst⟩)
    · rfl
    · rw [set_of_single hr, set_of_single hr', hfirst]

theorem Usable.set_eq_iff (h : r.Usable) (h' : r'.Usable) :
    r.set = r'.set ↔ r = r' ∨ (r.IsSingle ∧ r'.IsSingle ∧ r.first = r'.first) := by
  rw [RefPair.set_eq_iff, h.isSingle_iff, h'.isSingle_iff]

theorem key_single (h : r.isCompound = false) : r.key = .ok r.first.index := by
  rw [key, h]
  rfl

theorem key_signalable {i : ℕ} (hi : i < signalable.length) :
    signalable[i].key = .ok (singleCount + i) := by
  have hrange : (List.range compoundCount)[i]? = some i := List.getElem?_range hi
  have hkey := congrArg (fun keys => keys[i]?) map_key_signalable
  rw [List.getElem?_map, List.getElem?_map, List.getElem?_eq_getElem hi, hrange] at hkey
  exact Option.some_inj.mp hkey

theorem slots_single : ∀ a ∈ forwardFrames ++ backwardFrames, slots[a.index]? = some (.single a) := by
  decide

theorem slots_signalable {i : ℕ} (hi : i < signalable.length) :
    slots[singleCount + i]? = some (.compound signalable[i]) := by
  have hlength : ((RefFrame.all.take singleCount).map RefSet.single).length = singleCount := rfl
  rw [slots, List.getElem?_append_right (by rw [hlength]; exact Nat.le_add_right _ _), hlength,
    Nat.add_sub_cancel_left, List.getElem?_map, List.getElem?_eq_getElem hi]
  rfl

theorem Usable.exists_key (h : r.Usable) : ∃ k, r.key = .ok k ∧ slots[k]? = some r.set := by
  by_cases hr : r.IsSingle
  · have hsingle := h.isSingle_iff.mp hr
    refine ⟨_, key_single hsingle, ?_⟩
    rw [set_of_single hsingle]
    exact slots_single _ hr.1
  · have hcompound := (Bool.not_eq_false _).mp (mt h.isSingle_iff.mpr hr)
    obtain ⟨i, hi, rfl⟩ := List.getElem_of_mem (h.mem_signalable hr)
    refine ⟨_, key_signalable hi, ?_⟩
    rw [set_of_compound hcompound]
    exact slots_signalable hi

theorem lt_keyCount {refs : RefSet} (h : slots[k]? = some refs) : k < keyCount :=
  (List.getElem?_eq_some_iff.mp h).1

theorem key_congr (h : r.set = r'.set) : r.key = r'.key := by
  obtain rfl | ⟨hr, hr', hfirst⟩ := set_eq_iff.mp h
  · rfl
  · rw [key_single hr, key_single hr', hfirst]

theorem Usable.key_eq_iff (h : r.Usable) (h' : r'.Usable) (hk : r.key = .ok k)
    (hk' : r'.key = .ok k') : k = k' ↔ r.set = r'.set := by
  constructor
  · rintro rfl
    obtain ⟨i, hi, hset⟩ := h.exists_key
    obtain ⟨j, hj, hset'⟩ := h'.exists_key
    cases hi.symm.trans hk
    cases hj.symm.trans hk'
    exact Option.some_inj.mp (hset.symm.trans hset')
  · intro hset
    rw [key_congr hset, hk'] at hk
    exact (Except.ok.inj hk).symm

end RefPair

namespace Predictor

variable {p : Predictor} {r : RefPair} {k : ℕ}

theorem stack_eq (hk : r.key = .ok k) (hlt : k < RefPair.keyCount) :
    p.stack r = .ok p.table[k] := by
  rw [stack, hk, ok_bind, entry_of_lt hlt]

theorem update_eq (hk : r.key = .ok k) (hlt : k < RefPair.keyCount)
    (f : CandidateStack → CandidateStack) :
    p.update r f = .ok ⟨p.table.setIfInBounds k (f p.table[k])⟩ := by
  rw [update, hk, ok_bind, entry_of_lt hlt]
  rfl

end Predictor

end MotionEntropy
