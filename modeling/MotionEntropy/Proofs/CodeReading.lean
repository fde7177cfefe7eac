import Mathlib.Algebra.Order.Floor.Div
import MotionEntropy.Proofs.PrecisionTiers

namespace MotionEntropy

/-- The tier that components are coded as. The joint layout has one symbol for both fraction bits,
so it codes half pels as quarter pels. -/
def Precision.codedAs (p : Precision) (layout : Layout) : Precision :=
  if p = .halfPel ∧ layout = .joint then .quarterPel else p

def Precision.codedStep (p : Precision) (layout : Layout) : ℕ :=
  if p = .halfPel ∧ layout = .joint then 2 else p.step

namespace Reading

variable (layout : Layout) (code : List (Symbol × ℕ))

def bits : ℕ → Option ℕ
  | 0 => some 0
  | n + 1 => do
    let low ← bits n
    let bit ← code.lookup (.bit n)
    return low + bit * 2 ^ n

def whole (cls : ℕ) : Option ℕ := if cls = 0 then code.lookup .class0 else bits code cls

/-- The fraction, from the tables of its slots; bits that are not coded are ones. -/
def fraction (table : ℕ → Symbol) : ℕ :=
  match layout with
  | .joint => (code.lookup (table 0)).getD 3
  | .split =>
    let high := (code.lookup (table 0)).getD 1
    2 * high + (code.lookup (table (1 + high))).getD 1

def magnitude : Option Magnitude := do
  let cls ← code.lookup .magnitudeClass
  let whole ← whole code cls
  let fraction := fraction layout code fun slot =>
    if cls = 0 then .class0Fraction whole slot else .fraction slot
  let eighth := (code.lookup (if cls = 0 then .class0Eighth else .eighth)).getD 1
  return ⟨cls, whole, fraction, eighth⟩

def component : Option ℤ := do
  let sign ← code.lookup .sign
  let m ← magnitude layout code
  return (-1) ^ sign * (m.toNat + 1)

end Reading

section

variable {p : Precision} {layout : Layout} {comp comp' : ℤ}

theorem codedStep_eq : p.codedStep layout = (p.codedAs layout).step := by
  rw [Precision.codedStep, Precision.codedAs]
  split <;> rfl

theorem aligned_codedAs (p : Precision) (layout : Layout) : Aligned (p.codedAs layout) layout := by
  rw [Precision.codedAs]
  split
  · rintro ⟨h, -⟩
    cases h
  · next h => exact h

theorem componentCode_codedAs :
    componentCode (p.codedAs layout) layout comp = componentCode p layout comp := by
  rw [Precision.codedAs]
  split
  · next h =>
    obtain ⟨rfl, rfl⟩ := h
    rfl
  · rfl

end

namespace Magnitude

def filled (p : Precision) (m : Magnitude) : Magnitude where
  cls := m.cls
  whole := m.whole
  fraction := 2 * (if p = .fullPel then 1 else m.fraction / 2) +
    if .quarterPel ≤ p then m.fraction % 2 else 1
  eighth := if p = .eighthPel then m.eighth else 1

variable {m : Magnitude} {p : Precision} {layout : Layout} {z : ℕ}

theorem toNat_filled (p : Precision) (z : ℕ) :
    ((ofNat z).filled p).toNat + 1 = p.step * (z / p.step + 1) := by
  have hwhole := ofNat_whole z
  simp only [filled, toNat, ofNat_fraction, ofNat_eighth, hwhole]
  cases p with
  | fullPel =>
    show 8 * (z / 8) + 2 * (2 * 1 + 1) + 1 + 1 = 8 * (z / 8 + 1)
    omega
  | halfPel =>
    show 8 * (z / 8) + 2 * (2 * (z / 2 % 4 / 2) + 1) + 1 + 1 = 4 * (z / 4 + 1)
    omega
  | quarterPel =>
    show 8 * (z / 8) + 2 * (2 * (z / 2 % 4 / 2) + z / 2 % 4 % 2) + 1 + 1 = 2 * (z / 2 + 1)
    omega
  | eighthPel =>
    show 8 * (z / 8) + 2 * (2 * (z / 2 % 4 / 2) + z / 2 % 4 % 2) + z % 2 + 1 = 1 * (z / 1 + 1)
    omega

end Magnitude

section

variable {p : Precision} {layout : Layout} {comp comp' : ℤ} {s : Symbol} {v n k : ℕ}
  {code : List (Symbol × ℕ)}

theorem lookup_of_mem (hn : (code.map Prod.fst).Nodup) (h : (s, v) ∈ code) :
    code.lookup s = some v := by
  obtain ⟨before, after, rfl⟩ := List.append_of_mem h
  refine List.lookup_eq_some_iff.mpr ⟨before, after, rfl, ?_⟩
  intro x hx
  rw [List.map_append, List.nodup_append] at hn
  exact bne_iff_ne.mpr (hn.2.2 x.1 (List.mem_map_of_mem hx) s (.head _)).symm

theorem lookup_of_not_codedAt (h : ¬s.CodedAt p) :
    (componentCode p layout comp).lookup s = none := by
  apply List.lookup_eq_none_iff.mpr
  intro x hx
  apply bne_iff_ne.mpr
  rintro rfl
  exact h (codedAt_of_mem_componentCode hx)

theorem lookup_componentCode (h0 : comp ≠ 0)
    (h : (s, v) ∈ (Magnitude.ofNat (comp.natAbs - 1)).symbols p layout) :
    (componentCode p layout comp).lookup s = some v := by
  apply lookup_of_mem nodup_componentCode
  rw [componentCode_of_ne h0]
  exact .tail _ h

namespace Reading

theorem bits_eq (h : ∀ i < n, code.lookup (.bit i) = some (k >>> i % 2)) :
    bits code n = some (k % 2 ^ n) := by
  induction n with
  | zero => rw [pow_zero, Nat.mod_one]; rfl
  | succ n ih =>
    have hlow : bits code n = some (k % 2 ^ n) := by
      apply ih
      intro i hi
      exact h i (Nat.lt_succ_of_lt hi)
    rw [bits, hlow, h n n.lt_succ_self, Nat.mod_pow_succ, Nat.shiftRight_eq_div_pow, Nat.mul_comm]
    rfl

variable {m : Magnitude}

theorem whole_eq (hm : m.Proper) (h : ∀ x ∈ m.wholeSymbols, code.lookup x.1 = some x.2) :
    whole code m.cls = some m.whole := by
  have hlt := hm.whole_lt
  rw [whole]
  split
  · next h0 =>
    apply h (.class0, m.whole)
    rw [Magnitude.wholeSymbols, if_pos h0]
    exact .head _
  · next h0 =>
    rw [if_neg h0] at hlt
    rw [bits_eq (k := m.whole), Nat.mod_eq_of_lt hlt]
    intro i hi
    apply h (.bit i, m.whole >>> i % 2)
    rw [Magnitude.wholeSymbols, if_neg h0]
    exact List.mem_map.mpr ⟨i, List.mem_range.mpr hi, rfl⟩

theorem fraction_eq (hpl : Aligned p layout) (hm : m.Proper)
    (h : ∀ x ∈ m.fractionSymbols p layout, code.lookup x.1 = some x.2)
    (hnone : ∀ s, ¬s.CodedAt p → code.lookup s = none) :
    fraction layout code m.fractionTable = (m.filled p).fraction := by
  have hlt : m.fraction < 4 := hm.fraction_lt
  have huncoded {slot : ℕ} (hslot : ¬(p ≠ .fullPel ∧ (slot = 0 ∨ .quarterPel ≤ p))) :
      code.lookup (m.fractionTable slot) = none := by
    apply hnone
    rwa [Magnitude.codedAt_fractionTable]
  by_cases hp : p = .fullPel
  · have htable (slot : ℕ) : code.lookup (m.fractionTable slot) = none := huncoded fun h => h.1 hp
    subst hp
    cases layout <;> simp only [fraction, htable] <;> rfl
  · cases layout with
    | joint =>
      have hquarter := Precision.quarterPel_le_iff.mpr (hpl.step_lt hp)
      rw [Magnitude.fractionSymbols_joint hp] at h
      have htable : code.lookup (m.fractionTable 0) = some m.fraction := h _ (.head _)
      simp only [fraction, htable, Magnitude.filled, if_neg hp, if_pos hquarter, Option.getD_some]
      omega
    | split =>
      rw [Magnitude.fractionSymbols_split hp] at h
      have hhigh : code.lookup (m.fractionTable 0) = some (m.fraction / 2) := h _ (.head _)
      by_cases hquarter : .quarterPel ≤ p
      · rw [if_pos hquarter] at h
        have hlow : code.lookup (m.fractionTable (1 + m.fraction / 2)) = some (m.fraction % 2) :=
          h _ (.tail _ (.head _))
        simp only [fraction, hhigh, hlow, Magnitude.filled, if_neg hp, if_pos hquarter,
          Option.getD_some]
      · have hlow : code.lookup (m.fractionTable (1 + m.fraction / 2)) = none := by
          apply huncoded
          rintro ⟨-, hslot | hle⟩
          · omega
          · exact hquarter hle
        simp only [fraction, hhigh, hlow, Magnitude.filled, if_neg hp, if_neg hquarter,
          Option.getD_some, Option.getD_none]

theorem eighth_eq (h : ∀ x ∈ m.eighthSymbols p, code.lookup x.1 = some x.2)
    (hnone : ∀ s, ¬s.CodedAt p → code.lookup s = none) :
    (code.lookup (if m.cls = 0 then .class0Eighth else .eighth)).getD 1 =
      (m.filled p).eighth := by
  by_cases hp : p = .eighthPel
  · rw [Magnitude.eighthSymbols, if_pos hp] at h
    rw [h _ (.head _), Magnitude.filled, if_pos hp]
    rfl
  · rw [hnone _ (Magnitude.codedAt_eighth.not.mpr hp), Magnitude.filled, if_neg hp]
    rfl

theorem magnitude_eq (hpl : Aligned p layout) (h0 : comp ≠ 0) (hrange : InRange comp) :
    magnitude layout (componentCode p layout comp) =
      some ((Magnitude.ofNat (comp.natAbs - 1)).filled p) := by
  have hm := proper_of_inRange hrange
  have hlookup (x : Symbol × ℕ) (hx : x ∈ (Magnitude.ofNat (comp.natAbs - 1)).symbols p layout) :
      (componentCode p layout comp).lookup x.1 = some x.2 := lookup_componentCode h0 hx
  generalize Magnitude.ofNat (comp.natAbs - 1) = m at *
  simp only [Magnitude.symbols, List.mem_cons, List.mem_append] at hlookup
  have hnone (s : Symbol) (hs : ¬s.CodedAt p) : (componentCode p layout comp).lookup s = none :=
    lookup_of_not_codedAt hs
  have hcls : (componentCode p layout comp).lookup .magnitudeClass = some m.cls :=
    hlookup (.magnitudeClass, m.cls) (.inl rfl)
  have hwhole := whole_eq hm fun x hx => hlookup x (.inr (.inl hx))
  have hfraction := fraction_eq hpl hm (fun x hx => hlookup x (.inr (.inr (.inl hx)))) hnone
  have heighth := eighth_eq (fun x hx => hlookup x (.inr (.inr (.inr hx)))) hnone
  rw [magnitude, hcls]
  simp only [Option.bind_eq_bind, Option.bind_some, hwhole, heighth]
  exact congrArg (fun f => some (Magnitude.mk m.cls m.whole f _)) hfraction

theorem signed_filled (h0 : comp ≠ 0) :
    (-1) ^ (signSymbol comp).2 * (((Magnitude.ofNat (comp.natAbs - 1)).filled p).toNat + 1 : ℤ) =
      coarse p comp := by
  have hfilled := Magnitude.toNat_filled p (comp.natAbs - 1)
  rw [coarse_of_ne h0, ← hfilled, signSymbol]
  split <;> push_cast <;> ring

theorem component_eq (hpl : Aligned p layout) (h0 : comp ≠ 0) (hrange : InRange comp) :
    component layout (componentCode p layout comp) = some (coarse p comp) := by
  have hsign : (componentCode p layout comp).lookup .sign = some (signSymbol comp).2 := by
    apply lookup_of_mem nodup_componentCode
    rw [componentCode_of_ne h0]
    exact .head _
  rw [component, hsign, magnitude_eq hpl h0 hrange, ← signed_filled h0]
  rfl

end Reading

theorem dvd_coarse : (p.step : ℤ) ∣ coarse p comp := by
  rw [coarse, Nat.cast_mul]
  exact (dvd_mul_right _ _).mul_left _

theorem coarse_eq_self_iff : coarse p comp = comp ↔ (p.step : ℤ) ∣ comp := by
  constructor
  · intro h
    rw [← h]
    exact dvd_coarse
  · exact coarse_of_dvd

theorem signSymbol_eq_iff (h0 : comp ≠ 0) (h0' : comp' ≠ 0) :
    signSymbol comp' = signSymbol comp ↔ comp'.sign = comp.sign := by
  rw [signSymbol, signSymbol]
  obtain h | h := lt_or_gt_of_ne h0 <;> obtain h' | h' := lt_or_gt_of_ne h0' <;>
    simp [h, h', h.not_gt, h'.not_gt, Int.sign_eq_neg_one_of_neg, Int.sign_eq_one_of_pos]

theorem ceilDiv_step (h0 : comp ≠ 0) :
    comp.natAbs ⌈/⌉ p.step = (comp.natAbs - 1) / p.step + 1 := by
  rw [Nat.ceilDiv_eq_add_pred_div, ← Nat.add_div_right _ p.step_pos]
  congr 1
  omega

theorem coarse_eq_iff_ceil (h0 : comp ≠ 0) (h0' : comp' ≠ 0) : coarse p comp' = coarse p comp ↔
    comp'.sign = comp.sign ∧ comp'.natAbs ⌈/⌉ p.step = comp.natAbs ⌈/⌉ p.step := by
  rw [coarse_eq_iff h0' h0, signSymbol_eq_iff h0 h0', ceilDiv_step h0, ceilDiv_step h0',
    Nat.add_right_cancel_iff]

/-- Reading a code back gives the end of the step that a component lies in, away from zero. -/
theorem componentSymbols_read_back (p : Precision) (layout : Layout) (h0 : comp ≠ 0)
    (hrange : InRange comp) : ∃ code, componentSymbols p layout comp = .ok code ∧
      Reading.component layout code = some (comp.sign *
        (p.codedStep layout * (comp.natAbs ⌈/⌉ p.codedStep layout) : ℕ)) ∧
      (Reading.component layout code = some comp ↔ (p.codedStep layout : ℤ) ∣ comp) ∧
      ∀ comp', comp' ≠ 0 → InRange comp' → (componentSymbols p layout comp' = .ok code ↔
        comp'.sign = comp.sign ∧
          comp'.natAbs ⌈/⌉ p.codedStep layout = comp.natAbs ⌈/⌉ p.codedStep layout) := by
  have haligned := aligned_codedAs p layout
  have hread {x : ℤ} (hx0 : x ≠ 0) (hx : InRange x) :
      Reading.component layout (componentCode p layout x) = some (coarse (p.codedAs layout) x) := by
    rw [← componentCode_codedAs]
    exact Reading.component_eq haligned hx0 hx
  refine ⟨_, componentSymbols_eq_code h0 hrange, ?_, ?_, ?_⟩
  · rw [hread h0 hrange, codedStep_eq, Nat.ceilDiv_eq_add_pred_div]
    rfl
  · rw [hread h0 hrange, codedStep_eq, Option.some_inj, coarse_eq_self_iff]
  · intro comp' h0' hrange'
    rw [componentSymbols_eq_code h0' hrange', Except.ok.injEq, codedStep_eq,
      ← coarse_eq_iff_ceil h0 h0']
    constructor
    · intro h
      have hread' := hread h0' hrange'
      rw [h, hread h0 hrange, Option.some_inj] at hread'
      exact hread'.symm
    · intro h
      rw [← componentCode_codedAs, ← componentCode_codedAs (p := p)]
      exact componentCode_congr haligned h

theorem componentSymbols_read_back_halfPel : ∃ code,
    componentSymbols .halfPel .joint (-13) = .ok code ∧
    Reading.component .joint code = some (-14) ∧
    componentSymbols .halfPel .joint (-14) = .ok code ∧
    componentSymbols .halfPel .joint (-15) ≠ .ok code := by
  have h0 : (-13 : ℤ) ≠ 0 := by decide
  obtain ⟨code, hcode, hread, -, hsame⟩ :=
    componentSymbols_read_back .halfPel .joint h0 (by decide)
  refine ⟨code, hcode, hread, ?_, ?_⟩
  · exact (hsame (-14) (by decide) (by decide)).mpr (by decide)
  · intro h
    exact absurd ((hsame (-15) (by decide) (by decide)).mp h) (by decide)

end

end MotionEntropy
