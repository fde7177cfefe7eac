import MotionEntropy.Proofs.VectorCalls

namespace MotionEntropy

variable {P : {n : ℕ} → Cdf n → Prop} {layout : Layout} {w w' : Writer}

theorem Writer.write_table {n s : ℕ} {c c' : Cdf n} (h : w.write c s = .ok (w', c')) :
    c' = if w.adapts then c.moved s else c := by
  obtain ⟨cost, -, h⟩ := bind_eq_ok.mp h
  obtain ⟨ledger, -, h⟩ := bind_eq_ok.mp h
  cases hw : w.adapts with
  | false =>
    rw [hw] at h
    cases h
    rfl
  | true =>
    rw [hw] at h
    obtain ⟨c₁, hc, h⟩ := bind_eq_ok.mp h
    cases h
    rw [Cdf.adapt] at hc
    split at hc
    · cases hc
      rfl
    · cases hc

namespace Cdf

variable {k : ℕ} {freqs : Vector ℕ k}

theorem ofFrequencies_slot (i : Fin (k + 1)) (h : i < k) :
    (ofFrequencies freqs).slots.get i = 32768 - freqs.get ⟨i, h⟩ := by
  show ((freqs.map (32768 - ·)).push 0)[(i : ℕ)] = _
  rw [Vector.getElem_push, dif_pos h, Vector.getElem_map]
  rfl

theorem ofFrequencies_sound (hrising : ∀ i j : Fin k, i ≤ j → freqs.get i ≤ freqs.get j)
    (hinside : ∀ i : Fin k, 1 ≤ freqs.get i ∧ freqs.get i ≤ 32767) : (ofFrequencies freqs).Sound where
  falling i j hij hj := by
    have hij' : (i : ℕ) ≤ j := hij
    rw [ofFrequencies_slot i (by omega), ofFrequencies_slot j (by omega)]
    exact Nat.sub_le_sub_left (hrising _ _ hij) 32768
  inside i hi := by
    obtain ⟨hl, hu⟩ := hinside ⟨i, by omega⟩
    rw [ofFrequencies_slot i (by omega)]
    omega
  count_le := by
    rw [count_eq _ k.succ_pos]
    simp [ofFrequencies]

theorem ofFrequency_sound {f : ℕ} (h : 1 ≤ f ∧ f ≤ 32767) : (ofFrequencies #v[f]).Sound := by
  apply ofFrequencies_sound
  · intro i j _
    rw [Subsingleton.elim i j]
  · intro i
    rw [Subsingleton.elim i 0]
    exact h

end Cdf

namespace FractionTables

theorem initial_sound : (initial layout).All Cdf.Sound := by
  cases layout with
  | joint =>
    constructor
    · intro d
      match d with
      | 0 => exact Cdf.ofFrequencies_sound (by decide) (by decide)
      | 1 => exact Cdf.ofFrequencies_sound (by decide) (by decide)
    · exact Cdf.ofFrequencies_sound (by decide) (by decide)
  | split =>
    constructor
    · apply (forall_get_map (Q := fun v : Vector (Cdf 2) fractionSlots =>
        ∀ slot, (v.get slot).Sound)).mpr
      intro d
      rw [forall_get_map]
      intro slot
      apply Cdf.ofFrequency_sound
      decide +revert
    · rw [forall_get_map]
      intro slot
      apply Cdf.ofFrequency_sound
      decide +revert

end FractionTables

namespace Tables

structure Fit (layout : Layout) (P : {n : ℕ} → Cdf n → Prop) (t : Tables Cdf) : Prop where
  layout_eq : t.layout = layout
  all : t.All P

variable {t t' : Tables Cdf} {code : List (Symbol × ℕ)}

theorem Fit.put {s : Symbol} {place : Place Cdf} (ht : t.Fit layout P) (h : t.place s = .ok place)
    {c : Cdf place.size} (hc : P c) : (place.put c).Fit layout P :=
  ⟨(put_layout h c).trans ht.layout_eq, ht.all.put h hc⟩

theorem Fit.writeSymbols (hP : ∀ {n} (c : Cdf n) s, P c → P (c.moved s)) (ht : t.Fit layout P)
    (h : t.writeSymbols w code = .ok (w', t')) : t'.Fit layout P := by
  induction code generalizing w t with
  | nil =>
    cases h
    exact ht
  | cons s code ih =>
    obtain ⟨place, hplace, h⟩ := bind_eq_ok.mp h
    obtain ⟨⟨w₁, c⟩, hwrite, h⟩ := bind_eq_ok.mp h
    have htable : P place.table := all_iff.mp ht.all _ _ _ (find_of_place hplace)
    apply ih _ h
    apply ht.put hplace
    rw [Writer.write_table hwrite]
    split
    · exact hP _ _ htable
    · exact htable

theorem Fit.resetCounts (hP : ∀ {n} (c : Cdf n), P c → P c.resetCount) (ht : t.Fit layout P) :
    t.resetCounts.Fit layout P :=
  ⟨(layout_map _ t).trans ht.layout_eq, ht.all.map hP⟩

theorem initial_fit : (initial layout).Fit layout Cdf.Sound where
  layout_eq := layout_initial layout
  all := {
    sign := Cdf.ofFrequency_sound (by decide)
    classes := Cdf.ofFrequencies_sound (by decide) (by decide)
    class0 := Cdf.ofFrequency_sound (by decide)
    bits := by
      rw [initial, forall_get_map]
      intro i
      apply Cdf.ofFrequency_sound
      decide +revert
    fraction := FractionTables.initial_sound
    class0Eighth := Cdf.ofFrequency_sound (by decide)
    eighth := Cdf.ofFrequency_sound (by decide) }

end Tables

namespace VectorModel

structure Fit (layout : Layout) (P : {n : ℕ} → Cdf n → Prop) (m : VectorModel) : Prop where
  joints : P m.joints
  component : ∀ a, (m.component a).Fit layout P

variable {m m' : VectorModel} {p : Precision} {Q : {n : ℕ} → Cdf n → Prop}

theorem All.mono (hPQ : ∀ {n} (c : Cdf n), P c → Q c) (hm : m.All P) : m.All Q where
  joints := hPQ _ hm.joints
  component a := (hm.component a).mono hPQ

theorem Fit.tables (hm : m.Fit layout P) : m.All P where
  joints := hm.joints
  component a := (hm.component a).all

theorem Fit.valid (hm : m.Fit layout Cdf.Sound) : m.All Cdf.Valid :=
  hm.tables.mono fun _ hc => hc.valid

theorem Fit.setComponent (hm : m.Fit layout P) {t : Tables Cdf} (ht : t.Fit layout P) (a : Axis) :
    (m.setComponent a t).Fit layout P := by
  cases a with
  | row => exact ⟨hm.joints, Axis.forall_iff.mpr ⟨ht, hm.component .column⟩⟩
  | column => exact ⟨hm.joints, Axis.forall_iff.mpr ⟨hm.component .row, ht⟩⟩

theorem Fit.writeComponent (hP : ∀ {n} (c : Cdf n) s, P c → P (c.moved s)) (hm : m.Fit layout P)
    {a : Axis} {comp : ℤ} (h : m.writeComponent w p a comp = .ok (w', m')) : m'.Fit layout P := by
  obtain ⟨⟨w₁, t⟩, ht, h⟩ := bind_eq_ok.mp h
  obtain ⟨symbols, -, ht⟩ := bind_eq_ok.mp ht
  cases h
  exact hm.setComponent ((hm.component a).writeSymbols hP ht) a

theorem Fit.writeDifference (hP : ∀ {n} (c : Cdf n) s, P c → P (c.moved s)) (hm : m.Fit layout P)
    {d : MotionVector} (h : m.writeDifference w p d = .ok (w', m')) : m'.Fit layout P := by
  obtain ⟨⟨w₁, joints⟩, hjoints, h⟩ := bind_eq_ok.mp h
  refine foldlM_invariant (I := fun s => s.2.Fit layout P) ?_ ?_ h
  · rintro ⟨w, m⟩ a ⟨w', m'⟩ hm h
    dsimp only at h
    split at h
    · exact hm.writeComponent hP h
    · cases h
      exact hm
  · refine ⟨?_, hm.component⟩
    show P joints
    rw [Writer.write_table hjoints]
    split
    · exact hP _ _ hm.joints
    · exact hm.joints

theorem Fit.resetCounts (hP : ∀ {n} (c : Cdf n), P c → P c.resetCount) (hm : m.Fit layout P) :
    m.resetCounts.Fit layout P :=
  ⟨hP _ hm.joints, Axis.forall_iff.mpr
    ⟨(hm.component .row).resetCounts hP, (hm.component .column).resetCounts hP⟩⟩

theorem initial_fit : (initial layout).Fit layout Cdf.Sound :=
  ⟨Cdf.ofFrequencies_sound (by decide) (by decide),
    Axis.forall_iff.mpr ⟨Tables.initial_fit, Tables.initial_fit⟩⟩

end VectorModel

namespace TileModel

structure Fit (layout : Layout) (P : {n : ℕ} → Cdf n → Prop) (t : TileModel) : Prop where
  motion : t.motion.Fit layout P
  blockCopy : t.blockCopy.Fit layout P

variable {t t' : TileModel}

theorem Fit.valid (ht : t.Fit layout Cdf.Sound) : t.All Cdf.Valid :=
  ⟨ht.motion.valid, ht.blockCopy.valid⟩

theorem Fit.write (hP : ∀ {n} (c : Cdf n) s, P c → P (c.moved s)) (ht : t.Fit layout P) {c : Call}
    (h : c.write w t = .ok (w', t')) : t'.Fit layout P := by
  rw [Call.write_eq_checked] at h
  obtain ⟨-, -, h⟩ := bind_eq_ok.mp h
  obtain ⟨d, -, h⟩ := bind_eq_ok.mp h
  obtain ⟨⟨w₁, m⟩, hm, h⟩ := bind_eq_ok.mp h
  cases h
  cases c with
  | motion p mv ref => exact ⟨ht.motion.writeDifference hP hm, ht.blockCopy⟩
  | blockCopy dv ref => exact ⟨ht.motion, ht.blockCopy.writeDifference hP hm⟩

theorem Fit.resetCounts (hP : ∀ {n} (c : Cdf n), P c → P c.resetCount) (ht : t.Fit layout P) :
    t.resetCounts.Fit layout P := ⟨ht.motion.resetCounts hP, ht.blockCopy.resetCounts hP⟩

theorem initial_fit : (initial layout).Fit layout Cdf.Sound :=
  ⟨VectorModel.initial_fit, VectorModel.initial_fit⟩

end TileModel

end MotionEntropy
