import MotionEntropy.Proofs.PriceTables

namespace MotionEntropy

namespace VectorModel

variable {m : VectorModel} {p : Precision} {d : MotionVector} {P : {n : ℕ} → Cdf n → Prop}

theorem All.adapted (hP : ∀ {n} (c : Cdf n) s, P c → P (c.moved s)) (hm : m.All P) :
    (m.adapted p d).All P where
  joints := hP _ _ hm.joints
  component := Axis.forall_iff.mpr
    ⟨(hm.component .row).adapted hP, (hm.component .column).adapted hP⟩

theorem layout_adapted (a : Axis) :
    ((m.adapted p d).component a).layout = (m.component a).layout := by
  cases a <;> exact Tables.layout_adapted

end VectorModel

structure TileModel.All (P : {n : ℕ} → Cdf n → Prop) (t : TileModel) : Prop where
  motion : t.motion.All P
  blockCopy : t.blockCopy.All P

inductive Call
  | motion (p : Precision) (mv ref : MotionVector)
  | blockCopy (dv ref : MotionVector)

namespace Call

def precision : Call → Precision
  | motion p _ _ => p
  | blockCopy _ _ => .fullPel

def target : Call → MotionVector
  | motion _ mv _ => mv
  | blockCopy dv _ => dv

def reference : Call → MotionVector
  | motion _ _ ref => ref
  | blockCopy _ ref => ref

def model (t : TileModel) : Call → VectorModel
  | motion _ _ _ => t.motion
  | blockCopy _ _ => t.blockCopy

def setModel (t : TileModel) (m : VectorModel) : Call → TileModel
  | motion _ _ _ => { t with motion := m }
  | blockCopy _ _ => { t with blockCopy := m }

def Admissible : Call → Prop
  | motion _ mv _ => mv.IsValid
  | blockCopy dv ref => dv.IsFullPel ∧ ref.IsFullPel

instance : (c : Call) → Decidable c.Admissible
  | motion _ mv _ => inferInstanceAs (Decidable mv.IsValid)
  | blockCopy dv ref => inferInstanceAs (Decidable (dv.IsFullPel ∧ ref.IsFullPel))

def check : Call → Except Fault Unit
  | motion _ mv _ => require .motionValid mv.IsValid
  | blockCopy dv ref => do
    require .targetFullPel dv.IsFullPel
    require .referenceFullPel ref.IsFullPel

def difference (c : Call) : Except Fault MotionVector := c.target.sub c.reference

def gap (c : Call) (a : Axis) : ℤ := c.target.gap c.reference a

def InReach (c : Call) : Prop := ∀ a, (c.gap a).natAbs ≤ PriceTable.reach

def write (w : Writer) (t : TileModel) : Call → Except Fault (Writer × TileModel)
  | motion p mv ref => t.writeMotion w p mv ref
  | blockCopy dv ref => t.writeBlockCopy w dv ref

def quote (t : TileModel) (c : Call) : Except Fault ℕ := do
  let prices ← VectorPrices.build (c.model t) c.precision
  prices.quote c.target c.reference

def records (t : TileModel) (c : Call) : List Record :=
  match c.difference with
  | .ok d => if c.Admissible then (c.model t).records c.precision d else []
  | .error _ => []

def adapted (t : TileModel) (c : Call) : TileModel :=
  match c.difference with
  | .ok d => c.setModel t ((c.model t).adapted c.precision d)
  | .error _ => t

variable {c : Call} {t : TileModel} {w : Writer} {d : MotionVector}
  {P : {n : ℕ} → Cdf n → Prop}

theorem write_eq_checked (w : Writer) (t : TileModel) (c : Call) : c.write w t = do
    c.check
    let d ← c.difference
    let (w, m) ← (c.model t).writeDifference w c.precision d
    return (w, c.setModel t m) := by
  cases c with
  | motion p mv ref => rfl
  | blockCopy dv ref =>
    rw [write, TileModel.writeBlockCopy, check, difference]
    by_cases htarget : dv.IsFullPel
    · rw [require_of htarget]
      rfl
    · rw [require_of_not htarget]
      rfl

theorem check_eq_ok : c.check = .ok () ↔ c.Admissible := by
  cases c with
  | motion p mv ref => exact require_eq_ok
  | blockCopy dv ref =>
    rw [check, bind_eq_ok]
    constructor
    · rintro ⟨_, htarget, href⟩
      exact ⟨require_eq_ok.mp htarget, require_eq_ok.mp href⟩
    · rintro ⟨htarget, href⟩
      exact ⟨(), require_eq_ok.mpr htarget, require_eq_ok.mpr href⟩

theorem setModel_model : c.setModel t (c.model t) = t := by cases c <;> rfl

theorem model_all (ht : t.All P) (c : Call) : (c.model t).All P := by
  cases c with
  | motion p mv ref => exact ht.motion
  | blockCopy dv ref => exact ht.blockCopy

theorem exists_difference (h : ∀ a, InRange (c.gap a)) :
    ∃ d, c.difference = .ok d ∧ ∀ a, d.along a = c.gap a :=
  MotionVector.sub_of_word fun a => MotionVector.isWord_of_inRange (h a)

theorem records_of_difference (hc : c.Admissible) (hd : c.difference = .ok d) :
    c.records t = (c.model t).records c.precision d := by
  rw [records, hd]
  exact if_pos hc

theorem adapted_of_difference (hd : c.difference = .ok d) :
    c.adapted t = c.setModel t ((c.model t).adapted c.precision d) := by
  rw [adapted, hd]

theorem write_eq (ht : (c.model t).All Cdf.Valid) (hc : c.Admissible)
    (hr : ∀ a, InRange (c.gap a)) (hw : w.ledger.Fits (c.records t)) :
    c.write w t = .ok (w.after (c.records t), if w.adapts then c.adapted t else t) := by
  obtain ⟨d, hd, hgap⟩ := exists_difference hr
  have hr' : ∀ a, InRange (d.along a) := by
    intro a
    rw [hgap a]
    exact hr a
  rw [records_of_difference hc hd] at hw
  rw [write_eq_checked, check_eq_ok.mpr hc, ok_bind, hd, ok_bind,
    VectorModel.writeDifference_eq ht hr' hw, ok_bind, records_of_difference hc hd,
    adapted_of_difference hd]
  cases w.adapts with
  | true => rfl
  | false => exact congrArg (fun t => Except.ok (_, t)) setModel_model

theorem inRange_of_inReach (h : c.InReach) (a : Axis) : InRange (c.gap a) :=
  PriceTable.inRange_of_reach (h a)

theorem quote_eq (ht : (c.model t).All Cdf.Valid) (hc : c.Admissible) (hr : c.InReach) :
    c.quote t = .ok ((c.records t).map Record.cost).sum := by
  obtain ⟨d, hd, hgap⟩ := exists_difference (inRange_of_inReach hr)
  rw [quote, VectorPrices.build_eq ht, ok_bind,
    VectorPrices.quote_eq hd fun a => (hgap a).symm ▸ hr a, records_of_difference hc hd]

theorem quote_isOk_iff (ht : (c.model t).All Cdf.Valid) :
    (∃ price, c.quote t = .ok price) ↔ c.InReach := by
  rw [quote, VectorPrices.build_eq ht, ok_bind]
  constructor
  · rintro ⟨price, h⟩
    obtain ⟨d, hd, -⟩ := bind_eq_ok.mp h
    by_contra hr
    have hr' : ¬∀ a, (d.along a).natAbs ≤ PriceTable.reach := by
      intro hreach
      apply hr
      intro a
      rw [gap, ← MotionVector.along_of_sub hd a]
      exact hreach a
    rw [VectorPrices.quote_out hd hr'] at h
    cases h
  · intro hr
    obtain ⟨d, hd, hgap⟩ := exists_difference (inRange_of_inReach hr)
    exact ⟨_, VectorPrices.quote_eq hd fun a => (hgap a).symm ▸ hr a⟩

end Call

end MotionEntropy
