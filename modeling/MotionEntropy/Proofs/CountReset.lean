import MotionEntropy.Proofs.CostDomain
import MotionEntropy.Proofs.TableRouting

namespace MotionEntropy

namespace Cdf

variable {n : ℕ} {c c' : Cdf n}

/-- Whether a table differs from another only in that it counts from zero. -/
structure Restarted (c c' : Cdf n) : Prop where
  count_eq : c'.count = 0
  entries : c.SameEntries c'

theorem SameEntries.ordered (h : c.SameEntries c') (hc : c.Ordered) : c'.Ordered := by
  rw [ordered_iff_antitone] at hc ⊢
  rw [h.tail_eq]
  exact hc

theorem SameEntries.price_eq (h : c.SameEntries c') (s : ℕ) : c'.price s = c.price s := by
  rw [price, price, h.symbolCost_eq]

theorem SameEntries.prices_eq (h : c.SameEntries c') : c'.prices = c.prices := by
  rw [prices, prices]
  simp only [h.price_eq]

theorem SameEntries.eq_of_count (h : c.SameEntries c') (hcount : c'.count = c.count) : c' = c := by
  apply eq_of_slots
  intro i
  by_cases hi : i + 1 = n
  · rw [← count_eq_get _ hi, ← count_eq_get _ hi, hcount]
  · exact h i (by omega)

theorem sameEntries_resetCount (c : Cdf n) : c.SameEntries c.resetCount := resetCount_slot c

theorem restarted_iff : c.Restarted c' ↔ c' = c.resetCount := by
  constructor
  · intro h
    have hsame : c.resetCount.SameEntries c' := by
      intro i hi
      rw [resetCount_slot c i hi, h.entries i hi]
    apply hsame.eq_of_count
    rw [h.count_eq, resetCount_count]
  · rintro rfl
    exact ⟨resetCount_count c, sameEntries_resetCount c⟩

theorem Valid.resetCount (h : c.Valid) : c.resetCount.Valid where
  toOrdered := (sameEntries_resetCount c).ordered h.toOrdered
  count_le := by
    rw [resetCount_count]
    exact Nat.zero_le 63

end Cdf

namespace Tables

variable {t : Tables Cdf} {p : Precision} {comp : ℤ}

theorem find_resetCounts (t : Tables Cdf) (s : Symbol) :
    t.resetCounts.find s = (t.find s).map fun c => ⟨c.1, c.2.resetCount⟩ := find_map _ t s

theorem layout_resetCounts (t : Tables Cdf) : t.resetCounts.layout = t.layout := layout_map _ t

theorem record_resetCounts (t : Tables Cdf) (s : Symbol × ℕ) :
    t.resetCounts.record s = t.record s := by
  rw [record, record, find_resetCounts]
  cases t.find s.1 with
  | error e => rfl
  | ok c => simp only [Except.map, (Cdf.sameEntries_resetCount c.2).price_eq]

theorem componentCost_resetCounts :
    t.resetCounts.componentCost p comp = t.componentCost p comp := by
  simp only [componentCost, codeCost, layout_resetCounts, record_resetCounts]

end Tables

namespace VectorModel

variable {m m' : VectorModel} {p : Precision} {d : MotionVector} {q : Part} {n : ℕ} {c : Cdf n}

theorem component_resetCounts (m : VectorModel) (a : Axis) :
    m.resetCounts.component a = (m.component a).resetCounts := by
  cases a <;> rfl

theorem find_resetCounts (m : VectorModel) (q : Part) :
    m.resetCounts.find q = (m.find q).map fun c => ⟨c.1, c.2.resetCount⟩ := by
  cases q with
  | joints => rfl
  | component a s => rw [find, find, component_resetCounts, Tables.find_resetCounts]

theorem eq_of_find (h : ∀ q n (c : Cdf n), m.find q = .ok ⟨n, c⟩ → m'.find q = .ok ⟨n, c⟩) :
    m' = m := by
  have hjoints : m'.joints = m.joints := ok_sigma_inj.mp (h .joints _ m.joints rfl)
  have hcomponent (a : Axis) : m'.component a = m.component a :=
    Tables.eq_of_find fun s => h (.component a s)
  obtain ⟨joints, row, column⟩ := m
  obtain ⟨joints', row', column'⟩ := m'
  obtain rfl : joints' = joints := hjoints
  obtain rfl : row' = row := hcomponent .row
  obtain rfl : column' = column := hcomponent .column
  rfl

theorem find_resetCounts_eq_ok : m.resetCounts.find q = .ok ⟨n, c⟩ ↔
    ∃ c₀ : Cdf n, m.find q = .ok ⟨n, c₀⟩ ∧ c₀.Restarted c := by
  rw [find_resetCounts]
  constructor
  · intro h
    cases hfind : m.find q with
    | error e =>
      rw [hfind] at h
      cases h
    | ok a =>
      rw [hfind] at h
      cases h
      exact ⟨_, rfl, Cdf.restarted_iff.mpr rfl⟩
  · rintro ⟨c₀, h, hc⟩
    rw [h, Cdf.restarted_iff.mp hc]
    rfl

theorem eq_resetCounts_iff : m' = m.resetCounts ↔ ∀ q n (c : Cdf n), m.find q = .ok ⟨n, c⟩ →
    ∃ c' : Cdf n, m'.find q = .ok ⟨n, c'⟩ ∧ c.Restarted c' := by
  constructor
  · rintro rfl q n c h
    have hc := Cdf.restarted_iff.mpr (Eq.refl c.resetCount)
    exact ⟨_, find_resetCounts_eq_ok.mpr ⟨c, h, hc⟩, hc⟩
  · intro h
    apply eq_of_find
    intro q n c hc
    obtain ⟨c₀, hc₀, hrestarted⟩ := find_resetCounts_eq_ok.mp hc
    obtain ⟨c', hc', hrestarted'⟩ := h q n c₀ hc₀
    rw [hc', Cdf.restarted_iff.mp hrestarted, Cdf.restarted_iff.mp hrestarted']

theorem resetCounts_resetCounts (m : VectorModel) : m.resetCounts.resetCounts = m.resetCounts := by
  symm
  rw [eq_resetCounts_iff]
  intro q n c h
  obtain ⟨c₀, -, hc⟩ := find_resetCounts_eq_ok.mp h
  exact ⟨c, h, hc.count_eq, fun i _ => rfl⟩

theorem All.resetCounts (hm : m.All Cdf.Valid) : m.resetCounts.All Cdf.Valid where
  joints := hm.joints.resetCount
  component a := by
    rw [component_resetCounts]
    exact (hm.component a).map fun _ hc => hc.resetCount

theorem records_resetCounts : m.resetCounts.records p d = m.records p d := by
  have hjoint : m.resetCounts.joints.price d.joint.index = m.joints.price d.joint.index :=
    (Cdf.sameEntries_resetCount m.joints).price_eq _
  have haxis : m.resetCounts.axisRecords p d = m.axisRecords p d := by
    funext a
    simp only [axisRecords, code, component_resetCounts, Tables.layout_resetCounts]
    apply List.map_congr_left
    intro s _
    exact Tables.record_resetCounts _ s
  rw [records, records, hjoint, haxis]

end VectorModel

theorem VectorPrices.ofModel_resetCounts (m : VectorModel) (p : Precision) :
    ofModel m.resetCounts p = ofModel m p := by
  have htable (t : Tables Cdf) : PriceTable.ofTables t.resetCounts p = .ofTables t p := by
    simp only [PriceTable.ofTables, Tables.componentCost_resetCounts]
  have hjoints : m.resetCounts.joints.prices = m.joints.prices :=
    (Cdf.sameEntries_resetCount m.joints).prices_eq
  rw [ofModel, ofModel, hjoints]
  simp only [VectorModel.resetCounts, htable]

namespace Call

variable {c : Call} {t : TileModel} {w w' : Writer}

theorem model_resetCounts (t : TileModel) (c : Call) :
    c.model t.resetCounts = (c.model t).resetCounts := by
  cases c <;> rfl

theorem records_resetCounts : c.records t.resetCounts = c.records t := by
  rw [records, records]
  simp only [model_resetCounts, VectorModel.records_resetCounts]

theorem exists_write_iff (ht : (c.model t).All Cdf.Valid) :
    (∃ t', c.write w t = .ok (w', t')) ↔ c.Accepted ∧ w.enterAll (c.records t) = .ok w' := by
  simp only [write_eq_ok ht, exists_and_left, exists_eq, and_true]

end Call

namespace TileModel

variable {t t' : TileModel}

theorem ofKind_resetCounts (t : TileModel) (k : Kind) :
    t.resetCounts.ofKind k = (t.ofKind k).resetCounts := by
  cases k <;> rfl

theorem eq_of_ofKind (h : ∀ k, t'.ofKind k = t.ofKind k) : t' = t := by
  obtain ⟨motion, blockCopy⟩ := t
  obtain ⟨motion', blockCopy'⟩ := t'
  obtain rfl : motion' = motion := h .motion
  obtain rfl : blockCopy' = blockCopy := h .blockCopy
  rfl

theorem All.resetCounts (ht : t.All Cdf.Valid) : t.resetCounts.All Cdf.Valid :=
  ⟨ht.motion.resetCounts, ht.blockCopy.resetCounts⟩

/-- Resetting makes every table count from zero and does nothing else, and neither a price nor the
next write can tell. -/
theorem resetCounts_invisible (ht : t.All Cdf.Valid) :
    (∀ t' : TileModel, t' = t.resetCounts ↔ ∀ k q n (c : Cdf n), (t.ofKind k).find q = .ok ⟨n, c⟩ →
      ∃ c' : Cdf n, (t'.ofKind k).find q = .ok ⟨n, c'⟩ ∧ c.Restarted c') ∧
    t.resetCounts.resetCounts = t.resetCounts ∧
    (∀ k p, ∃ prices, VectorPrices.build (t.ofKind k) p = .ok prices ∧
      VectorPrices.build (t.resetCounts.ofKind k) p = .ok prices) ∧
    ∀ (c : Call) (w w' : Writer), (∃ t', c.write w t.resetCounts = .ok (w', t')) ↔
      ∃ t', c.write w t = .ok (w', t') := by
  refine ⟨?_, ?_, ?_, ?_⟩
  · intro t'
    constructor
    · rintro rfl k
      rw [ofKind_resetCounts]
      exact VectorModel.eq_resetCounts_iff.mp rfl
    · intro h
      apply eq_of_ofKind
      intro k
      rw [ofKind_resetCounts]
      exact VectorModel.eq_resetCounts_iff.mpr (h k)
  · apply eq_of_ofKind
    intro k
    rw [ofKind_resetCounts, ofKind_resetCounts, VectorModel.resetCounts_resetCounts]
  · intro k p
    refine ⟨.ofModel (t.ofKind k) p, VectorPrices.build_eq (ht.ofKind k), ?_⟩
    rw [ofKind_resetCounts, VectorPrices.build_eq (ht.ofKind k).resetCounts,
      VectorPrices.ofModel_resetCounts]
  · intro c w w'
    rw [Call.exists_write_iff (Call.model_all ht.resetCounts c),
      Call.exists_write_iff (Call.model_all ht c), Call.records_resetCounts]

theorem resetCounts_invisible_mixed : ∃ t : TileModel,
    t.motion.joints.count = 7 ∧ t.resetCounts.motion.joints.count = 0 ∧
    (∃ prices, VectorPrices.build t.motion .eighthPel = .ok prices ∧
      VectorPrices.build t.resetCounts.motion .eighthPel = .ok prices) ∧
    ∃ w' t₁ t₂, (Call.motion .quarterPel ⟨5, -300⟩ ⟨0, 0⟩).write (.recorder true) t = .ok (w', t₁) ∧
      (Call.motion .quarterPel ⟨5, -300⟩ ⟨0, 0⟩).write (.recorder true) t.resetCounts =
        .ok (w', t₂) := by
  let t : TileModel :=
    ⟨⟨.ofList [28672, 21504, 13440, 7], .initial .split, .initial .joint⟩, .initial .joint⟩
  have hinitial {layout : Layout} : (Tables.initial layout).All Cdf.Valid :=
    Tables.initial_fit.all.mono fun _ hc => hc.valid
  have hjoints : (Cdf.ofList [28672, 21504, 13440, 7]).Sound := by decide +kernel
  have ht : t.All Cdf.Valid :=
    ⟨⟨hjoints.valid, Axis.forall_iff.mpr ⟨hinitial, hinitial⟩⟩, VectorModel.initial_fit.valid⟩
  obtain ⟨hreset, -, hprices, hwrite⟩ := resetCounts_invisible ht
  obtain ⟨c, hc, hrestarted⟩ := (hreset _).mp rfl .motion .joints 4 t.motion.joints rfl
  cases hc
  obtain ⟨⟨w', t₁⟩, hrun⟩ := exists_ok_of_isOk
    (x := (Call.motion .quarterPel ⟨5, -300⟩ ⟨0, 0⟩).write (.recorder true) t) (by decide +kernel)
  obtain ⟨t₂, hrun'⟩ := (hwrite _ _ w').mpr ⟨t₁, hrun⟩
  exact ⟨t, rfl, hrestarted.count_eq, hprices .motion .eighthPel, w', t₁, t₂, hrun, hrun'⟩

end TileModel

end MotionEntropy
