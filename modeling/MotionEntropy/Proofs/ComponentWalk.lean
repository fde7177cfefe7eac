import Mathlib.Data.List.Nodup
import Mathlib.Data.List.Range
import MotionEntropy.Prices
import MotionEntropy.Proofs.TablePlaces

namespace MotionEntropy

namespace Symbol

/-- The place of a symbol in the coding order of a component. -/
def part : Symbol → ℕ
  | sign => 0
  | magnitudeClass => 1
  | class0 | bit _ => 2
  | class0Fraction _ _ | fraction _ => 3
  | class0Eighth | eighth => 4

variable {l l' : List Symbol}

theorem nodup_append_of_part (hl : l.Nodup) (hl' : l'.Nodup)
    (h : ∀ s ∈ l, ∀ s' ∈ l', s.part < s'.part) : (l ++ l').Nodup := by
  apply List.nodup_append.mpr
  refine ⟨hl, hl', ?_⟩
  rintro s hs s' hs' rfl
  exact lt_irrefl _ (h s hs s hs')

theorem nodup_cons_of_part {s : Symbol} (hl : l.Nodup) (h : ∀ s' ∈ l, s.part < s'.part) :
    (s :: l).Nodup := by
  apply List.nodup_cons.mpr
  refine ⟨?_, hl⟩
  intro hs
  exact lt_irrefl _ (h s hs)

end Symbol

def fractionCount (p : Precision) (layout : Layout) : ℕ :=
  if p = .fullPel then 0 else if layout = .joint ∨ p = .halfPel then 1 else 2

def eighthCount (p : Precision) : ℕ := if p = .eighthPel then 1 else 0

namespace Magnitude

structure Proper (m : Magnitude) : Prop where
  cls_lt : m.cls < classCount
  whole_lt : m.whole < if m.cls = 0 then class0Size else 2 ^ m.cls
  fraction_lt : m.fraction < fractionSize
  eighth_lt : m.eighth < 2

theorem offset_lt {z : ℕ} (h : z < 16384) :
    classOffset z < 8 * if magnitudeClass z = 0 then class0Size else 2 ^ magnitudeClass z := by
  by_cases hz : 8192 ≤ z
  · rw [classOffset, magnitudeClass_of_le hz]
    show z - 8192 < 8 * 1024
    omega
  · have hcls := magnitudeClass_lt z
    rw [classOffset]
    rw [magnitudeClass_of_lt (by omega)] at hcls ⊢
    have hlt := Nat.lt_log2_self (n := z / 8)
    split
    · next h0 =>
      rw [h0] at hlt
      have : class0Size = 2 := rfl
      omega
    · next h0 =>
      rw [classBase_eq h0 hcls, Nat.shiftLeft_eq]
      rw [pow_succ] at hlt
      omega

theorem ofNat_proper {z : ℕ} (h : z < 16384) : (ofNat z).Proper where
  cls_lt := magnitudeClass_lt z
  whole_lt := Nat.div_lt_of_lt_mul (offset_lt h)
  fraction_lt := Nat.mod_lt _ (by decide)
  eighth_lt := Nat.mod_lt _ (by decide)

variable {m : Magnitude} {p : Precision} {layout : Layout} {s : Symbol × ℕ}

theorem mem_wholeSymbols (h : s ∈ m.wholeSymbols) : (m.cls = 0 ∧ s = (.class0, m.whole)) ∨
    (m.cls ≠ 0 ∧ ∃ i < m.cls, s = (.bit i, m.whole >>> i % 2)) := by
  rw [wholeSymbols] at h
  split at h
  · next h0 => exact .inl ⟨h0, List.mem_singleton.mp h⟩
  · next h0 =>
    obtain ⟨i, hi, rfl⟩ := List.mem_map.mp h
    exact .inr ⟨h0, i, by simpa [classBits] using hi, rfl⟩

theorem mem_fractionSymbols (hm : m.Proper) (h : s ∈ m.fractionSymbols p layout) :
    p ≠ .fullPel ∧ ∃ slot < layout.slots, ∃ v < if layout = .joint then fractionSize else 2,
      s = (m.fractionTable slot, v) := by
  unfold fractionSymbols at h
  split at h
  · cases h
  · next hp =>
    refine ⟨hp, ?_⟩
    have hf : m.fraction < 4 := hm.fraction_lt
    cases layout with
    | joint => exact ⟨0, by decide, _, hf, List.mem_singleton.mp h⟩
    | split =>
      obtain rfl | h := List.mem_cons.mp h
      · exact ⟨0, by decide, _, show m.fraction / 2 < 2 by omega, rfl⟩
      · split at h
        · rw [List.mem_singleton] at h
          subst h
          refine ⟨1 + m.fraction / 2, ?_, _, show m.fraction % 2 < 2 by omega, rfl⟩
          show 1 + m.fraction / 2 < 3
          omega
        · cases h

theorem mem_eighthSymbols (h : s ∈ m.eighthSymbols p) :
    p = .eighthPel ∧ s = (if m.cls = 0 then .class0Eighth else .eighth, m.eighth) := by
  rw [eighthSymbols] at h
  split at h
  · next hp => exact ⟨hp, List.mem_singleton.mp h⟩
  · cases h

structure Coded (p : Precision) (layout : Layout) (s : Symbol × ℕ) : Prop where
  has : layout.Has s.1
  lt_alphabet : s.2 < layout.alphabet s.1
  priced : s.1.pricedAt p = true

theorem coded_of_mem (hm : m.Proper) (h : s ∈ m.symbols p layout) : Coded p layout s := by
  have hwhole := hm.whole_lt
  rw [symbols, List.mem_cons, List.mem_append, List.mem_append] at h
  obtain rfl | h | h | h := h
  · exact ⟨trivial, hm.cls_lt, rfl⟩
  · obtain ⟨h0, rfl⟩ | ⟨h0, i, hi, rfl⟩ := mem_wholeSymbols h
    · rw [if_pos h0] at hwhole
      exact ⟨trivial, hwhole, rfl⟩
    · have hcls : m.cls < 11 := hm.cls_lt
      exact ⟨show i < 10 by omega, Nat.mod_lt _ (by decide), rfl⟩
  · obtain ⟨hp, slot, hslot, v, hv, rfl⟩ := mem_fractionSymbols hm h
    by_cases h0 : m.cls = 0
    · rw [if_pos h0] at hwhole
      simp only [fractionTable, if_pos h0]
      exact ⟨⟨hwhole, hslot⟩, hv, decide_eq_true hp⟩
    · simp only [fractionTable, if_neg h0]
      exact ⟨hslot, hv, decide_eq_true hp⟩
  · obtain ⟨hp, rfl⟩ := mem_eighthSymbols h
    by_cases h0 : m.cls = 0
    · simp only [if_pos h0]
      exact ⟨trivial, hm.eighth_lt, decide_eq_true hp⟩
    · simp only [if_neg h0]
      exact ⟨trivial, hm.eighth_lt, decide_eq_true hp⟩

theorem part_wholeSymbols : ∀ s ∈ m.wholeSymbols.map Prod.fst, s.part = 2 := by
  rw [List.forall_mem_map]
  intro s hs
  obtain ⟨-, rfl⟩ | ⟨-, i, -, rfl⟩ := mem_wholeSymbols hs <;> rfl

theorem part_fractionTable (slot : ℕ) : (m.fractionTable slot).part = 3 := by
  unfold fractionTable
  split <;> rfl

theorem part_fractionSymbols : ∀ s ∈ (m.fractionSymbols p layout).map Prod.fst, s.part = 3 := by
  rw [List.forall_mem_map]
  intro s hs
  unfold fractionSymbols at hs
  split at hs
  · cases hs
  · cases layout with
    | joint =>
      rw [List.mem_singleton.mp hs]
      apply part_fractionTable
    | split =>
      obtain rfl | hs := List.mem_cons.mp hs
      · apply part_fractionTable
      · split at hs
        · rw [List.mem_singleton.mp hs]
          apply part_fractionTable
        · cases hs

theorem part_eighthSymbols : ∀ s ∈ (m.eighthSymbols p).map Prod.fst, s.part = 4 := by
  rw [List.forall_mem_map]
  intro s hs
  obtain ⟨-, rfl⟩ := mem_eighthSymbols hs
  by_cases h0 : m.cls = 0
  · rw [if_pos h0]
    rfl
  · rw [if_neg h0]
    rfl

theorem nodup_wholeSymbols : (m.wholeSymbols.map Prod.fst).Nodup := by
  rw [wholeSymbols]
  split
  · exact List.nodup_singleton _
  · rw [List.map_map]
    exact List.nodup_range.map fun i j h => Symbol.bit.inj h

theorem nodup_fractionSymbols : ((m.fractionSymbols p layout).map Prod.fst).Nodup := by
  unfold fractionSymbols fractionTable
  split
  · exact List.nodup_nil
  · cases layout with
    | joint => exact List.nodup_singleton _
    | split => split_ifs <;> simp <;> omega

theorem nodup_eighthSymbols : ((m.eighthSymbols p).map Prod.fst).Nodup := by
  rw [eighthSymbols]
  split
  · exact List.nodup_singleton _
  · exact List.nodup_nil

theorem two_le_part (m : Magnitude) (p : Precision) (layout : Layout) :
    ∀ s ∈ (m.wholeSymbols ++ (m.fractionSymbols p layout ++ m.eighthSymbols p)).map Prod.fst,
      2 ≤ s.part := by
  simp only [List.map_append, List.forall_mem_append]
  refine ⟨?_, ?_, ?_⟩
  · intro s hs
    rw [part_wholeSymbols s hs]
  · intro s hs
    rw [part_fractionSymbols s hs]
    decide
  · intro s hs
    rw [part_eighthSymbols s hs]
    decide

theorem nodup_symbols : ((m.symbols p layout).map Prod.fst).Nodup := by
  rw [symbols, List.map_cons]
  apply Symbol.nodup_cons_of_part
  · rw [List.map_append, List.map_append]
    apply Symbol.nodup_append_of_part nodup_wholeSymbols
    · apply Symbol.nodup_append_of_part nodup_fractionSymbols nodup_eighthSymbols
      intro s hs s' hs'
      rw [part_fractionSymbols s hs, part_eighthSymbols s' hs']
      decide
    · intro s hs s' hs'
      rw [part_wholeSymbols s hs]
      obtain hs' | hs' := List.mem_append.mp hs'
      · rw [part_fractionSymbols s' hs']
        decide
      · rw [part_eighthSymbols s' hs']
        decide
  · intro s hs
    exact two_le_part m p layout s hs

theorem sign_lt_part : ∀ s ∈ (m.symbols p layout).map Prod.fst, Symbol.sign.part < s.part := by
  rw [symbols, List.map_cons, List.forall_mem_cons]
  constructor
  · exact Nat.zero_lt_one
  · intro s hs
    exact Nat.zero_lt_of_lt (two_le_part m p layout s hs)

theorem length_wholeSymbols : m.wholeSymbols.length = max 1 m.cls := by
  rw [wholeSymbols]
  split
  · next h0 =>
    rw [h0]
    rfl
  · rw [List.length_map, List.length_range]
    show m.cls + 1 - 1 = max 1 m.cls
    omega

theorem length_fractionSymbols : (m.fractionSymbols p layout).length = fractionCount p layout := by
  cases p <;> cases layout <;> rfl

theorem length_eighthSymbols : (m.eighthSymbols p).length = eighthCount p := by
  cases p <;> rfl

theorem length_symbols : (m.symbols p layout).length =
    1 + max 1 m.cls + fractionCount p layout + eighthCount p := by
  rw [symbols, List.length_cons, List.length_append, List.length_append, length_wholeSymbols,
    length_fractionSymbols, length_eighthSymbols]
  omega

theorem length_symbols_le (hm : m.Proper) : (m.symbols p layout).length ≤ 14 := by
  have hcls : m.cls < 11 := hm.cls_lt
  have hfraction : fractionCount p layout ≤ 2 := by cases p <;> cases layout <;> decide
  have heighth : eighthCount p ≤ 1 := by cases p <;> decide
  rw [length_symbols]
  omega

end Magnitude

def InRange (comp : ℤ) : Prop := -componentLimit ≤ comp ∧ comp ≤ componentLimit

instance (comp : ℤ) : Decidable (InRange comp) := inferInstanceAs (Decidable (_ ∧ _))

def componentCode (p : Precision) (layout : Layout) (comp : ℤ) : List (Symbol × ℕ) :=
  if comp = 0 then [] else signSymbol comp :: (Magnitude.ofNat (comp.natAbs - 1)).symbols p layout

variable {p : Precision} {layout : Layout} {comp : ℤ}

theorem componentCode_zero : componentCode p layout 0 = [] := rfl

theorem componentCode_of_ne (h : comp ≠ 0) : componentCode p layout comp =
    signSymbol comp :: (Magnitude.ofNat (comp.natAbs - 1)).symbols p layout := if_neg h

theorem componentSymbols_eq_code (h0 : comp ≠ 0) (h : InRange comp) :
    componentSymbols p layout comp = .ok (componentCode p layout comp) :=
  (componentSymbols_eq_ok h0 h).trans (congrArg _ (componentCode_of_ne h0).symm)

theorem componentSymbols_zero : componentSymbols p layout 0 = .error (.broken .nonzeroComponent) :=
  rfl

theorem componentSymbols_out (h : ¬InRange comp) :
    componentSymbols p layout comp = .error (.broken .componentInRange) := by
  have h0 : comp ≠ 0 := by
    rintro rfl
    exact h (by decide)
  rw [componentSymbols, require_of h0, ok_bind]
  exact congrArg (· >>= _) (require_of_not h)

theorem proper_of_inRange (h : InRange comp) :
    (Magnitude.ofNat (comp.natAbs - 1)).Proper := by
  obtain ⟨hl, hu⟩ := h
  simp only [componentLimit] at hl hu
  exact Magnitude.ofNat_proper (by omega)

theorem coded_of_mem_componentCode (h : InRange comp) {s : Symbol × ℕ}
    (hs : s ∈ componentCode p layout comp) : Magnitude.Coded p layout s := by
  by_cases h0 : comp = 0
  · rw [h0, componentCode_zero] at hs
    cases hs
  · rw [componentCode_of_ne h0] at hs
    obtain rfl | hs := List.mem_cons.mp hs
    · refine ⟨trivial, ?_, rfl⟩
      show (if comp < 0 then 1 else 0) < 2
      split <;> decide
    · exact Magnitude.coded_of_mem (proper_of_inRange h) hs

theorem nodup_componentCode : ((componentCode p layout comp).map Prod.fst).Nodup := by
  by_cases h0 : comp = 0
  · rw [h0, componentCode_zero]
    exact List.nodup_nil
  · rw [componentCode_of_ne h0, List.map_cons]
    exact Symbol.nodup_cons_of_part Magnitude.nodup_symbols Magnitude.sign_lt_part

theorem length_componentCode (h0 : comp ≠ 0) : (componentCode p layout comp).length =
    2 + max 1 (magnitudeClass (comp.natAbs - 1)) + fractionCount p layout + eighthCount p := by
  have hcls : (Magnitude.ofNat (comp.natAbs - 1)).cls = magnitudeClass (comp.natAbs - 1) := rfl
  rw [componentCode_of_ne h0, List.length_cons, Magnitude.length_symbols, hcls]
  omega

theorem length_componentCode_le (h : InRange comp) : (componentCode p layout comp).length ≤ 15 := by
  by_cases h0 : comp = 0
  · rw [h0, componentCode_zero]
    exact Nat.zero_le _
  · rw [componentCode_of_ne h0, List.length_cons]
    exact Nat.succ_le_succ (Magnitude.length_symbols_le (proper_of_inRange h))

end MotionEntropy
