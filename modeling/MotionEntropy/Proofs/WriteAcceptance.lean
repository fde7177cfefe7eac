import MotionEntropy.Proofs.SessionInvariant

namespace MotionEntropy.Call

open MotionVector (IsWord)

def vectorRefusal : Call → Option Fault
  | motion _ mv _ => if mv.IsValid then none else some (.broken .motionValid)
  | blockCopy dv ref =>
    if dv.IsFullPel then
      if ref.IsFullPel then none else some (.broken .referenceFullPel)
    else some (.broken .targetFullPel)

def gapRefusal (c : Call) : Option Fault :=
  if ∀ a, IsWord (c.gap a) then
    if ∀ a, InRange (c.gap a) then none else some (.broken .componentInRange)
  else some (.overflow .subtract)

def refusal (c : Call) : Option Fault := c.vectorRefusal.or c.gapRefusal

variable {c : Call} {t : TileModel} {w : Writer} {f : Fault}

theorem vectorRefusal_eq_none : c.vectorRefusal = none ↔ c.Admissible := by
  cases c with
  | motion p mv ref =>
    rw [vectorRefusal]
    split
    · next h => exact iff_of_true rfl h
    · next h => exact iff_of_false nofun h
  | blockCopy dv ref =>
    rw [vectorRefusal]
    split_ifs with htarget href
    · exact iff_of_true rfl ⟨htarget, href⟩
    · exact iff_of_false nofun fun h => href h.2
    · exact iff_of_false nofun fun h => htarget h.1

theorem check_of_vectorRefusal (h : c.vectorRefusal = some f) : c.check = .error f := by
  cases c with
  | motion p mv ref =>
    rw [vectorRefusal] at h
    split at h
    · cases h
    · next hvalid =>
      cases h
      exact require_of_not hvalid
  | blockCopy dv ref =>
    rw [vectorRefusal] at h
    rw [check]
    split_ifs at h with htarget href
    · cases h
      rw [require_of htarget, ok_bind, require_of_not href]
    · cases h
      rw [require_of_not htarget, error_bind]

theorem gapRefusal_eq_none : c.gapRefusal = none ↔ ∀ a, InRange (c.gap a) := by
  rw [gapRefusal]
  split_ifs with hword hrange
  · exact iff_of_true rfl hrange
  · exact iff_of_false nofun hrange
  · exact iff_of_false nofun fun h => hword fun a => MotionVector.isWord_of_inRange (h a)

theorem refusal_eq_none : c.refusal = none ↔ c.Admissible ∧ ∀ a, InRange (c.gap a) := by
  rw [refusal, Option.or_eq_none_iff, vectorRefusal_eq_none, gapRefusal_eq_none]

theorem write_of_gapRefusal (ht : (c.model t).All Cdf.Valid) (hc : c.Admissible)
    (hw : w.ledger.Fits (c.records t)) (h : c.gapRefusal = some f) : c.write w t = .error f := by
  rw [write_eq_checked, check_eq_ok.mpr hc, ok_bind]
  rw [gapRefusal] at h
  split_ifs at h with hword hrange
  · cases h
    obtain ⟨d, hd, hgap⟩ := MotionVector.sub_of_word hword
    have hout : ¬∀ a, InRange (d.along a) := by
      intro h
      apply hrange
      intro a
      rw [gap, ← hgap a]
      exact h a
    rw [records_of_difference hc hd] at hw
    rw [difference, hd, ok_bind, VectorModel.writeDifference_out ht hout hw, error_bind]
  · cases h
    rw [difference, MotionVector.sub_of_not_word hword, error_bind]

theorem write_of_refusal (ht : (c.model t).All Cdf.Valid) (hw : w.ledger.Fits (c.records t))
    (h : c.refusal = some f) : c.write w t = .error f := by
  rw [refusal, Option.or_eq_some_iff] at h
  obtain h | ⟨hnone, h⟩ := h
  · rw [write_eq_checked, check_of_vectorRefusal h, error_bind]
  · exact write_of_gapRefusal ht (vectorRefusal_eq_none.mp hnone) hw h

theorem write_error_iff (ht : (c.model t).All Cdf.Valid) (hw : w.ledger.Fits (c.records t)) :
    c.write w t = .error f ↔ c.refusal = some f := by
  constructor
  · intro h
    cases hr : c.refusal with
    | some f' =>
      rw [write_of_refusal ht hw hr] at h
      cases h
      rfl
    | none =>
      obtain ⟨hc, hrange⟩ := refusal_eq_none.mp hr
      rw [write_eq ht hc hrange hw] at h
      cases h
  · exact write_of_refusal ht hw

theorem write_ok_iff (ht : (c.model t).All Cdf.Valid) (hw : w.ledger.Fits (c.records t)) :
    (∃ r, c.write w t = .ok r) ↔ c.Admissible ∧ ∀ a, InRange (c.gap a) := by
  rw [← refusal_eq_none]
  constructor
  · rintro ⟨r, h⟩
    cases hr : c.refusal with
    | some f =>
      rw [write_of_refusal ht hw hr] at h
      cases h
    | none => rfl
  · intro hr
    obtain ⟨hc, hrange⟩ := refusal_eq_none.mp hr
    exact ⟨_, write_eq ht hc hrange hw⟩

/-- A write is accepted exactly in range, and is otherwise refused for the first broken promise;
the models of a session at work are among those this holds for. -/
theorem write_accepted_or_refused :
    (∀ (t : TileModel) (c : Call) (w : Writer), (c.model t).All Cdf.Valid →
      w.ledger.Fits (c.records t) →
      ((∃ r, c.write w t = .ok r) ↔ c.Admissible ∧ ∀ a, InRange (c.gap a)) ∧
        ∀ f, c.write w t = .error f ↔ c.refusal = some f) ∧
    ∀ (cfg : Config) (writers : List Writer) (actions : List Session.Action) (s₀ s : Session),
      Session.start cfg writers = .ok s₀ → actions.foldlM Session.perform s₀ = .ok s →
      ∀ c : Call, (c.model s.pass.coder.tile).All Cdf.Valid := by
  constructor
  · intro t c w ht hw
    exact ⟨write_ok_iff ht hw, fun f => write_error_iff ht hw⟩
  · intro cfg writers actions s₀ s hstart hrun c
    exact model_all ((Session.start_invariant hstart).run hrun).pass.tile.valid c

theorem write_accepted_or_refused_initial :
    (∃ r, (motion .eighthPel ⟨16383, -7⟩ ⟨-1, 0⟩).write (.counter true) (.initial .joint) = .ok r) ∧
    (motion .eighthPel ⟨16383, -7⟩ ⟨-2, 0⟩).write (.counter true) (.initial .joint) =
      .error (.broken .componentInRange) ∧
    ∃ s₀ s, Session.start .standard [.counter true] = .ok s₀ ∧
      [.checkpoint, .resetCounts, .rollback 0].foldlM Session.perform s₀ = .ok s ∧
      (blockCopy ⟨8, 1⟩ ⟨1, 0⟩).write (.counter true) s.pass.coder.tile =
        .error (.broken .targetFullPel) := by
  have hvalid : (TileModel.initial .joint).All Cdf.Valid := TileModel.initial_fit.valid
  obtain ⟨hwrite, hreached⟩ := write_accepted_or_refused
  refine ⟨?_, ?_, _, _, rfl, rfl, ?_⟩
  · exact (hwrite _ _ _ (model_all hvalid _) (by decide +kernel)).1.mpr (by decide)
  · exact ((hwrite _ _ _ (model_all hvalid _) (by decide +kernel)).2 _).mpr (by decide)
  · have hmodel := hreached .standard [.counter true] [.checkpoint, .resetCounts, .rollback 0] _ _
      rfl rfl
    exact ((hwrite _ _ _ (hmodel _) (by decide +kernel)).2 _).mpr (by decide)

end MotionEntropy.Call
